import Bundler.Proofs.Parser.Places

/-!
# Operators place what they yield

An operation starts where its left operand starts, and ends with what has been
consumed last.  What is read behind the left operand lies behind it, and so in
the range of the operation, as long as the left operand lies in front of what is
read next: this is kept from one operator to the next.
-/

set_option synthInstance.maxSize 4000

namespace Bundler

open Bundler.Parser TokenStream

variable {passage : Passage} {stream after : TokenStream}

/-- What lies between two ranges lies in the range that covers both. -/
theorem Span.contains_between {left middle right : Span}
    (hleft : left.start ≤ middle.start) (hright : middle.stop ≤ right.stop) :
    (left.join right).contains middle = true :=
  contains_iff.mpr ⟨Nat.le_trans (Nat.min_le_left _ _) hleft,
    Nat.le_trans hright (Nat.le_max_right _ _)⟩

namespace Parser

theorem consume_of_require {kind : TokenKind} {token : Token}
    (hrun : require kind stream = .ok token after) :
    consume stream = .ok token after ∧ token.kind = kind := by
  rw [require, requireIn] at hrun
  obtain ⟨found, between, hconsume, hrun⟩ := Outcome.bind_eq_ok_iff.mp hrun
  split at hrun
  · rename_i hkind
    obtain ⟨rfl, rfl⟩ := Outcome.pure_eq_ok_iff.mp hrun
    exact ⟨hconsume, hkind⟩
  · exact absurd hrun Outcome.throw_ne_ok

theorem lastEnd_of_consume {base : Nat} {token : Token}
    (hstream : stream.Lexes base)
    (hrun : consume stream = .ok token after) :
    after.lastEnd = token.span.stop := by
  obtain ⟨rfl, rfl⟩ := consume_eq_ok_iff.mp hrun
  exact hstream.lastEnd_advance .standard

/-- What is read up to a mark lies in front of the end of the mark. -/
theorem placed_upTo {α : Type} [HasPlaces α] {parser : Parser α}
    [Disciplined false parser] [∀ passage, Sound passage parser]
    (henters : passage.Enters stream) {value : α} {close : Token}
    {between : TokenStream} {mark : Punctuator}
    (hrun : parser stream = .ok value between)
    (hclose : requireMark mark between = .ok close after) :
    ∃ start, Placed ⟨passage.text, ⟨start, close.span.stop⟩⟩ value ∧
      stream.lastEnd ≤ start := by
  have hboth : (do
      let value ← parser
      let _ ← requireMark mark
      return value : Parser α) stream = .ok value after := by
    rw [Outcome.bind_of_ok hrun, Outcome.bind_of_ok hclose]
    rfl
  have hbetween : between.Reads passage.text :=
    (inferInstance : Disciplined false parser).reads henters.reads hrun
  obtain ⟨hvalue, hstart, hstop, _⟩ :=
    Sound.placed_spanSince inferInstance inferInstance inferInstance henters
      hboth
  rw [lastEnd_of_consume hbetween.lexes (consume_of_require hclose).1]
    at hstop
  refine ⟨_, ?_, hstart⟩
  rw [← hstop]
  exact hvalue

end Parser

namespace Passage

/-- A node of a passage that lies in front of what is read next. -/
def Ends (passage : Passage) (node : Node) (stream : TokenStream) : Prop :=
  Placed passage.bounds node ∧ node.span.stop ≤ stream.lastEnd

/-- A parser goes on from a node to another one. -/
def Extends (passage : Passage) (left : Node) (parser : Parser Node) : Prop :=
  ∀ {stream}, passage.Enters stream → passage.Ends left stream →
    passage.Leaves passage.Ends (parser stream)

variable {left : Node}

theorem Ends.leads (h : passage.Ends left stream)
    (henters : passage.Enters stream) (hafter : passage.Enters after)
    (hleads : Leads 0 stream after) : passage.Ends left after :=
  ⟨h.1, Nat.le_trans h.2 (henters.reads.lastEnd_le hafter.reads hleads)⟩

theorem Ends.start_le (h : passage.Ends left stream) :
    left.span.start ≤ stream.lastEnd :=
  Nat.le_trans h.1.placed.isIn.2.2 h.2

/-- A node that has been read lies in front of what is read next. -/
theorem leaves_ends {parser : Parser Node} [Disciplined false parser]
    [Advances parser] [∀ passage, Sound passage parser]
    (henters : passage.Enters stream) :
    passage.Leaves passage.Ends (parser stream) := by
  refine (Sound.run inferInstance henters).mono
    fun node after hrun _ hnode => ⟨hnode, ?_⟩
  obtain ⟨hown, _, hstop, _⟩ :=
    Sound.placed_spanSince inferInstance inferInstance inferInstance henters
      hrun
  rw [← hstop]
  exact (Span.contains_iff.mp hown.placed.contains).2

/-- A node that spans its left operand and something behind it. -/
theorem Ends.spanning (h : passage.Ends left stream) {right : Span}
    (hright : passage.bounds.Covers right)
    (hstop : right.stop ≤ stream.lastEnd) (shape : Shape Node)
    [Placed ⟨passage.bounds.text, left.span.join right⟩ shape] :
    passage.Ends (Grammar.spanning left.span right shape) stream :=
  ⟨Node.placed_mk (h.1.covers.join hright) shape,
    Nat.max_le.mpr ⟨h.2, hstop⟩⟩

end Passage

namespace Grammar

theorem extends_memberOf (object : Node) (optional : Bool) :
    passage.Extends object (memberOf object optional) := by
  intro stream henters hobject
  rw [memberOf]
  refine Passage.leaves_bind henters inferInstance inferInstance
    (Sound.run inferInstance henters)
    fun property between hrun hgone hbetween hlast htoken => ?_
  split
  · have hproperty := consumes_of_consume henters.reads.lexes hrun
    have hobject := hobject.leads henters hbetween hgone
    have hleft := hobject.1.within
      (Span.contains_join_left object.span property.span)
    exact Passage.leaves_pure hbetween fun _ =>
      hobject.spanning (Passage.covers_token henters hproperty hlast)
        (hbetween.reads.stop_le_lastEnd hproperty) _
  · exact Passage.leaves_fail hbetween fun _ => htoken.placed.span

variable (grammar : Grammar) [hdisciplined : grammar.IsDisciplined]
  [hadvancing : grammar.IsAdvancing]
  [hgrammar : ∀ passage, grammar.IsSound passage]

theorem extends_callOn (callee : Node) (optional : Bool) :
    passage.Extends callee (grammar.callOn callee optional) := by
  intro stream henters hcallee
  rw [callOn]
  refine Passage.leaves_bind henters inferInstance inferInstance
    (Sound.run inferInstance henters)
    fun arguments between hrun hgone hbetween _ _ => ?_
  refine Passage.leaves_bind hbetween inferInstance inferInstance
    (Sound.run inferInstance hbetween)
    fun close later hclose hcloseGone hlater hlast _ => ?_
  obtain ⟨start, harguments, hstart⟩ := placed_upTo henters hrun hclose
  have htoken := consumes_of_consume hbetween.reads.lexes
    (consume_of_require hclose).1
  have hleft := hcallee.1.within
    (Span.contains_join_left callee.span close.span)
  have hmiddle : Placed
      ⟨passage.bounds.text, callee.span.join close.span⟩ arguments := by
    have hcontains : (callee.span.join close.span).contains
        ⟨start, close.span.stop⟩ = true :=
      Span.contains_between (Nat.le_trans hcallee.start_le hstart)
        (Nat.le_refl _)
    exact ⟨fun node hnode => (harguments.placed node hnode).mono hcontains⟩
  have hcallee := hcallee.leads henters hlater (hgone.trans hcloseGone)
  exact Passage.leaves_pure hlater fun _ =>
    hcallee.spanning (Passage.covers_token hbetween htoken hlast)
      (hlater.reads.stop_le_lastEnd htoken) _

omit hadvancing in
theorem extends_computedMemberOf (object : Node) (optional : Bool) :
    passage.Extends object (grammar.computedMemberOf object optional) := by
  intro stream henters hobject
  rw [computedMemberOf]
  refine Passage.leaves_bind henters inferInstance inferInstance
    (Sound.run inferInstance henters)
    fun key between hrun hgone hbetween _ _ => ?_
  refine Passage.leaves_bind hbetween inferInstance inferInstance
    (Sound.run inferInstance hbetween)
    fun close later hclose hcloseGone hlater hlast _ => ?_
  obtain ⟨start, hkey, hstart⟩ := placed_upTo henters hrun hclose
  have htoken := consumes_of_consume hbetween.reads.lexes
    (consume_of_require hclose).1
  have hleft := hobject.1.within
    (Span.contains_join_left object.span close.span)
  have hmiddle : Placed
      ⟨passage.bounds.text, object.span.join close.span⟩ key := by
    have hcontains : (object.span.join close.span).contains
        ⟨start, close.span.stop⟩ = true :=
      Span.contains_between (Nat.le_trans hobject.start_le hstart)
        (Nat.le_refl _)
    exact ⟨hkey.placed.mono hcontains⟩
  have hobject := hobject.leads henters hlater (hgone.trans hcloseGone)
  exact Passage.leaves_pure hlater fun _ =>
    hobject.spanning (Passage.covers_token hbetween htoken hlast)
      (hlater.reads.stop_le_lastEnd htoken) _

theorem extends_conditionalOn (test : Node) (ends : List TokenKind)
    (lineEnds : Bool) :
    passage.Extends test (grammar.conditionalOn test ends lineEnds) := by
  intro stream henters htest
  rw [conditionalOn]
  refine Passage.leaves_bind henters inferInstance inferInstance
    (Sound.run inferInstance henters)
    fun consequent between hrun hgone hbetween _ _ => ?_
  refine Passage.leaves_bind hbetween inferInstance inferInstance
    (Sound.run inferInstance hbetween)
    fun colon later _ hcolonGone hlater _ _ => ?_
  refine Passage.leaves_bind hlater inferInstance inferInstance
    (Passage.leaves_ends hlater)
    fun alternate last hlastRun halternateGone hlast _ halternate => ?_
  obtain ⟨hconsequent, hstart, hstop, _⟩ :=
    Sound.placed_spanSince inferInstance inferInstance inferInstance henters
      hrun
  obtain ⟨hown, hlaterStart, _, _⟩ :=
    Sound.placed_spanSince inferInstance inferInstance inferInstance hlater
      hlastRun
  have hleft := htest.1.within
    (Span.contains_join_left test.span alternate.span)
  have hmiddle : Placed
      ⟨passage.bounds.text, test.span.join alternate.span⟩ consequent := by
    refine ⟨hconsequent.placed.mono (Span.contains_between
      (Nat.le_trans htest.start_le hstart) ?_)⟩
    -- In front of the alternative there is a colon.
    calc (between.spanSince stream.checkpoint).stop
        = between.lastEnd := hstop
      _ ≤ later.lastEnd := hbetween.reads.lastEnd_le hlater.reads hcolonGone
      _ ≤ (last.spanSince later.checkpoint).start := hlaterStart
      _ ≤ alternate.span.start :=
          (Span.contains_iff.mp hown.placed.contains).1
      _ ≤ alternate.span.stop := hown.placed.isIn.2.2
  have hright := halternate.1.within
    (Span.contains_join_right test.span alternate.span)
  have htest := htest.leads henters hlast
    ((hgone.trans hcolonGone).trans halternateGone)
  exact Passage.leaves_pure hlast fun _ =>
    htest.spanning halternate.1.covers halternate.2 _

/-- What an assignment sets has the range of what it was read as. -/
theorem placed_target {left target : Node} {operator : Operator}
    (hleft : passage.Ends left stream)
    (htarget : left.toAssignmentTarget operator = .ok target) :
    passage.Ends target stream := by
  have hinner := Node.placed_toAssignmentTarget
    (hleft.1.within (Span.contains_refl left.span)) operator
  rw [htarget] at hinner
  have hwithin : target.Located passage.text left.span := hinner.placed
  exact ⟨⟨hwithin.mono hleft.1.placed.contains⟩,
    Nat.le_trans (Span.contains_iff.mp hwithin.contains).2 hleft.2⟩

/-- A binary operation after its left operand, which may be a target. -/
theorem leaves_binary {left : Node} {operator : Operator}
    {ends : List TokenKind} {lineEnds : Bool} (henters : passage.Enters stream)
    (hleft : passage.Ends left stream) :
    passage.Leaves passage.Ends ((do
      let right ←
        grammar.expressionFrom operator.rightPrecedence ends lineEnds
      return spanning left.span right.span (.binary operator left right) :
        Parser Node) stream) := by
  refine Passage.leaves_bind henters inferInstance inferInstance
    (Passage.leaves_ends henters)
    fun right after _ hgone hafter _ hright => ?_
  have hfirst := hleft.1.within
    (Span.contains_join_left left.span right.span)
  have hsecond := hright.1.within
    (Span.contains_join_right left.span right.span)
  have hleft := hleft.leads henters hafter hgone
  exact Passage.leaves_pure hafter fun _ =>
    hleft.spanning hright.1.covers hright.2 _

theorem extends_binaryOn (left : Node) (operator : Operator)
    (ends : List TokenKind) (lineEnds : Bool) :
    passage.Extends left (grammar.binaryOn left operator ends lineEnds) := by
  intro stream henters hleft
  rw [binaryOn]
  dsimp only
  split
  · have houtcome := Node.placed_toAssignmentTarget hleft.1 operator
    cases htarget : left.toAssignmentTarget operator with
    | ok target =>
        exact grammar.leaves_binary henters (placed_target hleft htarget)
    | error error =>
        rw [htarget] at houtcome
        exact Passage.leaves_fail henters fun _ => houtcome.placed
  · exact grammar.leaves_binary henters hleft

theorem extends_operationOn (left : Node) (operator : Operator)
    (ends : List TokenKind) (lineEnds : Bool) :
    passage.Extends left
      (grammar.operationOn left operator ends lineEnds) := by
  unfold operationOn
  split
  · exact grammar.extends_callOn left false
  · exact grammar.extends_callOn left true
  · exact grammar.extends_computedMemberOf left false
  · exact grammar.extends_computedMemberOf left true
  · exact extends_memberOf left false
  · exact extends_memberOf left true
  · exact grammar.extends_conditionalOn left ends lineEnds
  · exact grammar.extends_binaryOn left _ ends lineEnds

omit hadvancing in
theorem extends_taggedTemplate (tag : Node) :
    passage.Extends tag (grammar.taggedTemplate tag) := by
  intro stream henters htag
  have hparts : Disciplined false (grammar.templateParts true) :=
    inferInstance
  have hleaves := hparts.reads_leaves henters.reads
  rw [taggedTemplate]
  cases hrun : grammar.templateParts true stream with
  | error failure after =>
      rw [leaves_of_error hrun] at hleaves
      rw [Outcome.bind_of_error (withSpan_of_error hrun)]
      exact fun _ => Sound.of_error inferInstance henters hrun hleaves
  | ok parts after =>
      rw [leaves_of_ok hrun] at hleaves
      rw [Outcome.bind_of_ok (withSpan_of_ok hrun)]
      obtain ⟨texts, values⟩ := parts
      obtain ⟨hkept, _⟩ := Sound.of_ok inferInstance henters hrun hleaves
      obtain ⟨hvalues, hstart, hstop, hcovers⟩ :=
        Sound.placed_spanSince inferInstance inferInstance inferInstance
          henters hrun
      obtain ⟨_, hvalues⟩ := hvalues.pair
      have hafter : passage.Enters after :=
        ⟨hleaves, Nat.le_trans henters.first_le
          (hparts.consumed_le_of_ok hrun), hkept⟩
      have hleft := htag.1.within (Span.contains_join_left tag.span
        (after.spanSince stream.checkpoint))
      have hright : Placed ⟨passage.bounds.text,
          tag.span.join (after.spanSince stream.checkpoint)⟩ values :=
        ⟨fun node hnode => (hvalues.placed node hnode).mono
          (Span.contains_join_right _ _)⟩
      have htag := htag.leads henters hafter
        (hparts.leads henters.reads.lexes hrun).2
      exact Passage.leaves_pure hafter fun hlast =>
        htag.spanning (hcovers hlast) (Nat.le_of_eq hstop) _

/-! ### Expressions -/

/-- What one more operator makes of an expression is in front of what is read
next, and a finished expression is placed. -/
def Extended (passage : Passage) (outcome : Node ⊕ Node)
    (stream : TokenStream) : Prop :=
  match outcome with
  | .inl node => passage.Ends node stream
  | .inr node => Placed passage.bounds node

theorem leaves_extendAt {least : Nat} {ends : List TokenKind}
    {lineEnds : Bool} {left : Node} {token : Token}
    (henters : passage.Enters stream) (hleft : passage.Ends left stream)
    (htoken : token.IsIn passage.text)
    (hconsumed : givesBack least ends lineEnds token = false →
      passage.bounds.Covers token.span ∧
        token.span.stop ≤ stream.lastEnd) :
    passage.Leaves (Extended passage)
      (grammar.extendAt least ends lineEnds left token stream) := by
  have hextended : ∀ {parser : Parser Node}, Disciplined false parser →
      passage.Extends left parser →
      passage.Leaves (Extended passage)
        ((do return .inl (← parser) : Parser (Node ⊕ Node)) stream) :=
    fun hparser hextends => Passage.leaves_bind henters hparser
      inferInstance (hextends henters hleft)
      fun node after _ _ hafter _ hnode =>
        Passage.leaves_pure hafter fun _ => hnode
  have hfinished : passage.Leaves (Extended passage)
      ((return .inr left : Parser (Node ⊕ Node)) stream) :=
    Passage.leaves_pure henters fun _ => hleft.1
  rw [givesBack] at hconsumed
  rw [extendAt]
  by_cases hends : ends.contains token.kind = true
  · rw [if_pos hends]
    exact hfinished
  rw [if_neg hends]
  rw [Bool.eq_false_iff.mpr hends, Bool.false_or] at hconsumed
  cases hoperator : postfixOperator? token with
  | some operator =>
      dsimp only
      rw [hoperator] at hconsumed
      split
      · exact hfinished
      · rename_i hleast
        obtain ⟨hcovers, hstop⟩ := hconsumed (decide_eq_false hleast)
        have hinner := hleft.1.within
          (Span.contains_join_left left.span token.span)
        exact Passage.leaves_pure henters fun _ =>
          hleft.spanning hcovers hstop (.update operator left)
  | none =>
      dsimp only
      split
      · exact hextended inferInstance (grammar.extends_taggedTemplate left)
      · cases token.kind.infixOperator? with
        | none =>
            dsimp only
            split
            · exact hfinished
            · exact Passage.leaves_fail henters fun _ => htoken.span
        | some operator =>
            dsimp only
            split
            · exact hfinished
            · exact hextended inferInstance
                (grammar.extends_operationOn left operator ends lineEnds)

theorem sound_expressionRule (least : Nat) (ends : List TokenKind)
    (lineEnds : Bool) :
    Sound passage (grammar.expressionRule least ends lineEnds) := by
  constructor
  intro stream henters
  rw [expressionRule]
  refine Passage.leaves_bind henters inferInstance inferInstance
    (Passage.leaves_ends henters)
    fun first between _ _ hbetween _ hfirst => ?_
  refine leaves_iterate (fun left stream => passage.Ends left stream)
    inferInstance (fun {left stream} henters hleft => ?_) hbetween hfirst
  rw [extendExpression_eq]
  have hextended : passage.Leaves (Extended passage)
      (rewinding consume (givesBack least ends lineEnds)
        (grammar.extendAt least ends lineEnds left) stream) := by
    refine leaves_rewinding henters inferInstance inferInstance
      inferInstance fun token between span hrun htoken _ hstart hgone hlast =>
        ?_
    refine grammar.leaves_extendAt hstart (hleft.leads henters hstart hgone)
      htoken.placed fun hback => ?_
    have hconsumed := consumes_of_consume henters.reads.lexes hrun
    rw [hback, if_neg Bool.false_ne_true] at hstart hlast ⊢
    exact ⟨Passage.covers_token henters hconsumed hlast,
      hstart.reads.stop_le_lastEnd hconsumed⟩
  exact hextended.mono fun outcome _ _ _ houtcome => by
    cases outcome <;> exact houtcome

end Grammar

end Bundler
