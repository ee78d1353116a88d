import Bundler.Analysis.Effect
import Bundler.Proofs.Parser.Arrows
import Bundler.Proofs.Parser.ExpressionEnds

/-!
# Commas behind an arrow

The body of an arrow function that is no block is read like any expression, up to
what ends the expression that the function stands in.  Where a comma does not
end that expression, all that commas join behind the arrow is the body; so what
stands behind the first comma runs only when the function is called.
-/

set_option synthInstance.maxSize 1000

namespace Bundler

open TokenStream

/-- To define an arrow function has no effect. -/
theorem Node.IsArrow.hasEffect {node : Node} {isAsync : Bool}
    {parameters : List Node} {body : FuncBody Node}
    (h : node.IsArrow isAsync parameters body) : node.hasEffect = false := by
  obtain ⟨span, rfl⟩ := h
  have hfunc : ∀ span, (Node.mk span
      (.func true isAsync false parameters body)).hasEffect = false := by
    intro span
    rw [Node.hasEffect]
    rfl
  rw [Node.hasEffect]
  simp only [Node.shape, Shape.isEffect, Bool.false_or]
  rw [List.any_eq_false]
  rintro ⟨⟨role, part⟩, hpart⟩ _
  obtain ⟨rfl, rfl⟩ := Prod.mk.inj (List.mem_singleton.mp hpart)
  exact Bool.eq_false_iff.mp (hfunc span)

namespace Grammar

open Bundler.Parser

/-- Two expressions with a comma between them. -/
def joinComma (left right : Node) : Node :=
  spanning left.span right.span (.binary .comma left right)

section Commas

variable {grammar : Grammar} [grammar.IsDisciplined] {text : List Char}
  {stop place : Nat} {left later : Node} {ends : List TokenKind}
  {lineEnds : Bool}

/-- At a comma that is an operator an expression goes on with what is behind
it. -/
theorem runs_extendExpression_at_comma
    (hcomma : (tokenAt text .standard place).kind = .punctuator .comma)
    (hends : .punctuator .comma ∉ ends) (hplace : Reaches text place)
    (hrun : Runs text (grammar.expressionFrom 2 ends lineEnds)
      (tokenAt text .standard place).span.stop later stop) :
    Runs text (grammar.extendExpression 1 ends lineEnds left) place
      (.inl (joinComma left later)) stop := by
  have hjoin : Runs text (grammar.operationOn left .comma ends lineEnds)
      (tokenAt text .standard place).span.stop (joinComma left later) stop := by
    change Runs text (grammar.binaryOn left .comma ends lineEnds) _ _ _
    rw [binaryOn, if_neg (by decide)]
    exact .bind (runs_pure.mpr ⟨hrun.reaches_start, rfl, rfl⟩)
      (.bind hrun (runs_pure.mpr ⟨hrun.reaches_stop, rfl, rfl⟩))
  exact runs_extendExpression_of_operator (by rw [hcomma]; rfl)
    (hcomma ▸ hends) (by decide) hplace hjoin

end Commas

/-! ### Lists of expressions -/

/-- From a place on expressions are read with commas between them, up to a token
that is no comma. -/
inductive ReadsItems (grammar : Grammar) (text : List Char)
    (ends : List TokenKind) (lineEnds : Bool) :
    (start : Nat) → (item : Node) → (items : List Node) → (stop : Nat) → Prop
  | last {start stop : Nat} {item : Node} :
      Runs text (grammar.expressionFrom 2 ends lineEnds) start item stop →
      (tokenAt text .standard stop).kind ≠ .punctuator .comma →
      ReadsItems grammar text ends lineEnds start item [] stop
  | more {start between stop : Nat} {item next : Node} {items : List Node} :
      Runs text (grammar.expressionFrom 2 ends lineEnds) start item between →
      (tokenAt text .standard between).kind = .punctuator .comma →
      ReadsItems grammar text ends lineEnds
        (tokenAt text .standard between).span.stop next items stop →
      ReadsItems grammar text ends lineEnds start item (next :: items) stop

section Sources

variable {rules : NameRules} {source : String} {start stop : Nat}
  {item node : Node} {items : List Node} {ends : List TokenKind}
  {lineEnds : Bool}

/-- An expression without commas is an operand that is extended in the same way
where there may be commas. -/
theorem exists_steps_of_expression
    (hrun : Runs source.toList
      ((forSource rules source).expressionFrom 2 ends lineEnds) start item
      stop) :
    ∃ first between, Runs source.toList
        ((forSource rules source).operand ends lineEnds) start first between ∧
      Steps source.toList
        ((forSource rules source).extendExpression 1 ends lineEnds) first
        between item stop ∧
      EndsAt 2 ends lineEnds (tokenAt source.toList .standard stop) := by
  obtain ⟨first, between, hfirst, hrepeats⟩ := runs_expression_iff.mp hrun
  obtain ⟨last, place, hsteps, hdone⟩ := hrepeats.exists_steps
  obtain ⟨rfl, rfl, hends⟩ := endsAt_of_extendExpression hdone
  refine ⟨first, between, hfirst, ?_, hends⟩
  clear hfirst hrepeats hdone hends hrun
  induction hsteps with
  | here state => exact .here state
  | more hmore _ ih =>
      exact .more (runs_extendExpression_of_le (by decide) hmore) ih

/-- Behind its first item a list of expressions is joined to what is in front of
it. -/
theorem ReadsItems.repeats
    (h : (forSource rules source).ReadsItems source.toList ends lineEnds start
      item items stop)
    (hends : .punctuator .comma ∉ ends) :
    ∃ between, Runs source.toList
        ((forSource rules source).expressionFrom 2 ends lineEnds) start item
        between ∧
      ∀ left, Repeats source.toList
        ((forSource rules source).extendExpression 1 ends lineEnds) left between
        (items.foldl joinComma left) stop := by
  induction h with
  | last hitem hcomma =>
      obtain ⟨_, _, _, _, hplace⟩ := exists_steps_of_expression hitem
      exact ⟨_, hitem, fun left =>
        .done ((hplace.one hcomma).runs hitem.reaches_stop)⟩
  | more hitem hcomma _ ih =>
      obtain ⟨between, hnext, hrepeats⟩ := ih
      refine ⟨_, hitem, fun left => ?_⟩
      exact .more (runs_extendExpression_at_comma hcomma hends
        hitem.reaches_stop hnext) (hrepeats (joinComma left _))

/-- Where a comma is an operator, a list of expressions is one expression, its
items joined from the left. -/
theorem ReadsItems.runs
    (h : (forSource rules source).ReadsItems source.toList ends lineEnds start
      item items stop)
    (hends : .punctuator .comma ∉ ends) :
    Runs source.toList
      ((forSource rules source).expressionFrom 1 ends lineEnds) start
      (items.foldl joinComma item) stop := by
  obtain ⟨between, hitem, hrepeats⟩ := h.repeats hends
  obtain ⟨first, place, hfirst, hsteps, _⟩ := exists_steps_of_expression hitem
  exact runs_expression_iff.mpr
    ⟨first, place, hfirst, hsteps.repeats (hrepeats item)⟩

theorem runs_arrowBody_concise {place : Nat}
    (hbrace : (tokenAt source.toList .standard start).kind ≠
      .punctuator .braceOpen)
    (hrun : Runs source.toList
      ((forSource rules source).expressionOrLine ends) start node place) :
    Runs source.toList ((forSource rules source).arrowBody ends) start
      (.concise node) place := by
  rw [arrowBody]
  refine .bind (runs_peekKind.mpr ⟨hrun.reaches_start, rfl, rfl⟩) ?_
  rw [if_neg hbrace]
  exact .bind hrun (runs_pure.mpr ⟨hrun.reaches_stop, rfl, rfl⟩)

variable {otherwise : Option (Parser Node)} {isAsync : Bool}
  {parameters : List Node} {arrow : Token} {bodyStart : Nat}
  {first next : Node} {others : List Node}

/-- Behind the arrow of a function without braces stands a list of expressions.
Where a comma does not end the expression that the function starts, as in a
statement, in parentheses, behind `export default`, in the header of a loop or in
a conditional, the body is all of the list, and defining the function runs none of
it.  Where a comma ends it, as in another list, the body is the first item. -/
theorem concise_body_commas
    (hstarts : (forSource rules source).StartsArrow source.toList lineEnds start
      otherwise)
    (hopening : Runs source.toList (forSource rules source).arrowOpening start
      (isAsync, parameters, arrow) bodyStart)
    (hbrace : (tokenAt source.toList .standard bodyStart).kind ≠
      .punctuator .braceOpen)
    (hitems : (forSource rules source).ReadsItems source.toList ends true
      bodyStart first (next :: others) stop) :
    (.punctuator .comma ∉ ends →
      ∃ node : Node,
        node.IsArrow isAsync parameters
          (.concise ((next :: others).foldl joinComma first)) ∧
        node.hasEffect = false ∧
        (∀ found place,
          Runs source.toList ((forSource rules source).operand ends lineEnds)
              start found place ↔
            found = node ∧ place = stop) ∧
        ∀ least,
          EndsAt least ends lineEnds (tokenAt source.toList .standard stop) →
          ∀ found place,
            Runs source.toList
                ((forSource rules source).expressionFrom least ends lineEnds)
                start found place ↔
              found = node ∧ place = stop) ∧
    (.punctuator .comma ∈ ends →
      ∃ (node : Node) (between : Nat),
        node.IsArrow isAsync parameters (.concise first) ∧
        (tokenAt source.toList .standard between).kind = .punctuator .comma ∧
        ∀ least found place,
          Runs source.toList
              ((forSource rules source).expressionFrom least ends lineEnds)
              start found place ↔
            found = node ∧ place = between) := by
  have hoperand : Disciplined false
      ((forSource rules source).operand ends lineEnds) := inferInstance
  have hexpression : ∀ least, Disciplined false
      ((forSource rules source).expressionFrom least ends lineEnds) :=
    fun least => inferInstance
  constructor
  · intro hcomma
    obtain ⟨node, hnode, hrun⟩ := exists_runs_arrowFunction hopening
      (runs_arrowBody_concise hbrace (hitems.runs hcomma))
    have hrun := hstarts.runs_operand_of_arrow hrun
    exact ⟨node, hnode, hnode.hasEffect,
      fun found place => hoperand.runs_iff hrun,
      fun least hends found place => (hexpression least).runs_iff
        (runs_expression_of_operand hrun hends)⟩
  · intro hcomma
    obtain ⟨between, hitem, hmark⟩ : ∃ between, Runs source.toList
          ((forSource rules source).expressionFrom 2 ends true) bodyStart first
          between ∧
        (tokenAt source.toList .standard between).kind =
          .punctuator .comma := by
      cases hitems with
      | more hitem hmark _ => exact ⟨_, hitem, hmark⟩
    obtain ⟨node, hnode, hrun⟩ := exists_runs_arrowFunction hopening
      (runs_arrowBody_concise hbrace ((runs_expression_comma hcomma).mpr hitem))
    have hrun := hstarts.runs_operand_of_arrow hrun
    have hends : ∀ least, EndsAt least ends lineEnds
        (tokenAt source.toList .standard between) :=
      fun least => .kind (List.contains_iff_mem.mpr (hmark ▸ hcomma))
    exact ⟨node, between, hnode, hmark, fun least found place =>
      (hexpression least).runs_iff (runs_expression_of_operand hrun
        (hends least))⟩

end Sources

/-- A call behind a comma in a statement that starts with an arrow function. -/
theorem exists_comma_behind_arrow :
    ∃ (isAsync : Bool) (parameters : List Node) (arrow : Token)
      (bodyStart stop : Nat) (first next : Node),
      (forSource .module "x => a, f()").StartsArrow "x => a, f()".toList true 0
        none ∧
      Runs "x => a, f()".toList (forSource .module "x => a, f()").arrowOpening 0
        (isAsync, parameters, arrow) bodyStart ∧
      (tokenAt "x => a, f()".toList .standard bodyStart).kind ≠
        .punctuator .braceOpen ∧
      (forSource .module "x => a, f()").ReadsItems "x => a, f()".toList
        [.punctuator .semicolon] true bodyStart first [next] stop ∧
      EndsAt 1 [.punctuator .semicolon] true
        (tokenAt "x => a, f()".toList .standard stop) ∧
      next.hasEffect = true := by
  have hfacts : Outcome.passes (do
        let opening ← (forSource .module "x => a, f()").arrowOpening
        let kind ← peekKind
        let first ← (forSource .module "x => a, f()").expressionFrom 2
          [.punctuator .semicolon] true
        let comma ← consume
        let next ← (forSource .module "x => a, f()").expressionFrom 2
          [.punctuator .semicolon] true
        let last ← peek
        return (opening, kind, first, comma, next, last) : Parser _)
      (ofSource "x => a, f()".toList) (fun found _ =>
        found.2.1 = .identifier ∧
        found.2.2.2.1.kind = .punctuator .comma ∧
        found.2.2.2.2.1.hasEffect = true ∧
        found.2.2.2.2.2.kind = .endOfInput) = true := by decide +kernel
  obtain ⟨found, after, hrun, htest⟩ := Outcome.exists_of_passes hfacts
  obtain ⟨hbrace, hcomma, heffect, hlast⟩ := of_decide_eq_true htest
  have hruns := (inferInstance : Disciplined false _).runs
    (Program.reads_ofSource _) hrun
  obtain ⟨⟨isAsync, parameters, arrow⟩, bodyStart, hopening, hruns⟩ :=
    runs_bind.mp hruns
  obtain ⟨kind, _, hkind, hruns⟩ := runs_bind.mp hruns
  obtain ⟨_, rfl, rfl⟩ := runs_peekKind.mp hkind
  obtain ⟨first, between, hfirst, hruns⟩ := runs_bind.mp hruns
  obtain ⟨comma, _, hconsume, hruns⟩ := runs_bind.mp hruns
  obtain ⟨_, rfl, rfl⟩ := runs_consume.mp hconsume
  obtain ⟨next, stop, hnext, hruns⟩ := runs_bind.mp hruns
  obtain ⟨last, _, hpeek, hruns⟩ := runs_bind.mp hruns
  obtain ⟨_, rfl, rfl⟩ := runs_peek.mp hpeek
  obtain ⟨_, rfl, rfl⟩ := runs_pure.mp hruns
  dsimp only at hbrace hcomma heffect hlast
  refine ⟨isAsync, parameters, arrow, _, _, first, next,
    .name rfl rfl (by decide +kernel) (by decide +kernel), hopening, ?_,
    .more hfirst hcomma (.last hnext ?_), ?_, heffect⟩
  · rw [hbrace]
    exact nofun
  · rw [hlast]
    exact nofun
  · exact .endOfInput hlast

/-- The call behind the comma is part of the body. -/
theorem concise_body_commas_call :
    ∃ (node first next : Node) (isAsync : Bool) (parameters : List Node)
      (stop : Nat),
      node.IsArrow isAsync parameters (.concise (joinComma first next)) ∧
      next.hasEffect = true ∧ node.hasEffect = false ∧
      Runs "x => a, f()".toList
        ((forSource .module "x => a, f()").expressionFrom 1
          [.punctuator .semicolon] true) 0 node stop := by
  obtain ⟨isAsync, parameters, arrow, bodyStart, stop, first, next, hstarts,
    hopening, hbrace, hitems, hends, hcall⟩ := exists_comma_behind_arrow
  obtain ⟨node, hnode, hpure, _, hexpression⟩ :=
    (concise_body_commas hstarts hopening hbrace hitems).1 (by decide)
  exact ⟨node, first, next, isAsync, parameters, stop, hnode, hcall, hpure,
    (hexpression 1 hends node stop).mpr ⟨rfl, rfl⟩⟩

/-- A comma does not always end the body of an arrow function without braces. -/
theorem not_concise_body_first :
    ¬ ∀ (rules : NameRules) (source : String) (start bodyStart stop : Nat)
      (ends : List TokenKind) (lineEnds isAsync : Bool)
      (otherwise : Option (Parser Node)) (parameters : List Node)
      (arrow : Token) (first next : Node) (others : List Node),
      (forSource rules source).StartsArrow source.toList lineEnds start
        otherwise →
      Runs source.toList (forSource rules source).arrowOpening start
        (isAsync, parameters, arrow) bodyStart →
      (tokenAt source.toList .standard bodyStart).kind ≠
        .punctuator .braceOpen →
      (forSource rules source).ReadsItems source.toList ends true bodyStart
        first (next :: others) stop →
      .punctuator .comma ∉ ends →
      EndsAt 1 ends lineEnds (tokenAt source.toList .standard stop) →
      ∃ function : Node,
        function.IsArrow isAsync parameters (.concise first) ∧
        Runs source.toList
          ((forSource rules source).expressionFrom 1 ends lineEnds) start
          ((next :: others).foldl joinComma function) stop := by
  intro hall
  obtain ⟨isAsync, parameters, arrow, bodyStart, stop, first, next, hstarts,
    hopening, hbrace, hitems, hends, _⟩ := exists_comma_behind_arrow
  have hcomma : TokenKind.punctuator .comma ∉
      [TokenKind.punctuator .semicolon] := by decide
  obtain ⟨function, _, hjoined⟩ := hall _ _ _ _ _ _ _ _ _ _ _ _ _ _ hstarts
    hopening hbrace hitems hcomma hends
  obtain ⟨node, ⟨span, rfl⟩, hrun⟩ := exists_runs_arrowFunction hopening
    (runs_arrowBody_concise hbrace (hitems.runs hcomma))
  have hrun := runs_expression_of_operand
    (hstarts.runs_operand_of_arrow hrun) hends
  cases ((inferInstance : Disciplined false _).runs_unique hrun hjoined).1

end Grammar

end Bundler
