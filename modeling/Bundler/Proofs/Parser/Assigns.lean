import Bundler.Proofs.Parser.Ensures
import Bundler.Proofs.Parser.Sequence

/-!
# Assignments in parsed trees

An assignment is read by one rule only, which turns its left operand into a target or
refuses it, and a default of a shorthand is one to a name.  So whatever is read, every
assignment in the tree has a target on its left: no other rule makes an assignment,
and each one passes on the trees of its parts.
-/

namespace Bundler

open Bundler.Parser

namespace Shape

variable {α : Type}

/-- Whether an access to a member is an optional one, and what it goes on from. -/
def access? : Shape α → Option (Bool × α)
  | .member optional owner _ | .computedMember optional owner _ =>
      some (optional, owner)
  | _ => none

/-- The operator and the target of an assignment. -/
def assigned? : Shape α → Option (Operator × α)
  | .binary operator left _ =>
      if operator.isAssignment then some (operator, left) else none
  | _ => none

end Shape

/-- What an assignment sets: a name, a pattern, if the assignment is a plain one, or
a member that is not accessed optionally. -/
def Node.IsTarget (operator : Operator) (node : Node) : Prop :=
  match node.shape with
  | .identPattern _ => True
  | .arrayPattern _ _ | .objectPattern _ _ => operator = .assignment
  | shape => ∃ owner, shape.access? = some (false, owner)

namespace Node

/-- Every assignment in a tree has a target on its left. -/
inductive Assigns : Node → Prop
  | mk {span : Span} {shape : Shape Node} :
      (∀ found ∈ shape.assigned?, found.2.IsTarget found.1) →
      (∀ part ∈ shape.parts, part.2.Assigns) →
      Assigns (.mk span shape)

theorem Assigns.parts {node : Node} (h : node.Assigns) :
    ∀ part ∈ node.parts, part.2.Assigns := by
  cases h with
  | mk _ hparts => exact hparts

end Node

/-- Every assignment in the tree of a node of some shape has a target. -/
def Shape.Assigns (shape : Shape Node) : Prop :=
  (∀ found ∈ shape.assigned?, found.2.IsTarget found.1) ∧
    ∀ part ∈ shape.parts, part.2.Assigns

theorem Shape.Assigns.node {shape : Shape Node} (h : shape.Assigns) (span : Span) :
    (Node.mk span shape).Assigns := .mk h.1 h.2

theorem Shape.Assigns.of_parts {shape : Shape Node} (hshape : shape.assigned? = none)
    (hparts : ∀ part ∈ shape.parts, part.2.Assigns) : shape.Assigns :=
  ⟨fun _ hfound => absurd (hshape.symm.trans hfound) nofun, hparts⟩

theorem Shape.Assigns.leaf {shape : Shape Node} (hshape : shape.assigned? = none)
    (hparts : shape.parts = []) : shape.Assigns :=
  .of_parts hshape (hparts ▸ List.forall_mem_nil _)

theorem Parser.Ensures.node {shape : Parser (Shape Node)}
    (h : Ensures shape Shape.Assigns) : Ensures (node shape) Node.Assigns :=
  h.withSpan.map fun found hfound => hfound.node found.1

/-! ### Patterns that expressions mean -/

namespace Node

mutual

theorem assigns_toPattern {node pattern : Node} (h : node.Assigns)
    (hrun : node.toPattern = .ok pattern) : pattern.Assigns := by
  rw [Node.toPattern.eq_def] at hrun
  have hparts := h.parts
  split at hrun
  · obtain ⟨⟨targets, rest⟩, htargets, hrun⟩ := Except.bind_eq_ok_iff.mp hrun
    cases hrun
    obtain ⟨htargets, hrest⟩ :=
      assigns_elementsToPattern (List.forall_mem_flatMap.mp hparts) htargets
    refine (Shape.Assigns.of_parts rfl ?_).node _
    exact List.forall_mem_append.mpr
      ⟨List.forall_mem_flatMap.mpr htargets, by grind⟩
  · obtain ⟨⟨properties, rest⟩, hproperties, hrun⟩ :=
      Except.bind_eq_ok_iff.mp hrun
    cases hrun
    obtain ⟨hproperties, hrest⟩ := assigns_membersToPattern
      (fun member hmem => hparts (.plain, member) (List.mem_map_of_mem hmem))
      hproperties
    exact (Shape.Assigns.of_parts rfl (by grind [Shape.parts])).node _
  · cases hrun
    exact (Shape.Assigns.of_parts rfl (by grind [Shape.parts])).node _
  · cases hrun
    exact h
  · cases hrun
    exact h
  · cases hrun
    exact h
  · cases hrun
termination_by 2 * sizeOf node

theorem assigns_toDefaultedPattern {node target : Node} {initial : Option Node}
    (h : node.Assigns) (hrun : node.toDefaultedPattern = .ok (target, initial)) :
    target.Assigns ∧ ∀ value ∈ initial, value.Assigns := by
  rw [Node.toDefaultedPattern.eq_def] at hrun
  split at hrun
  · rename_i span operator left right
    obtain ⟨hleft, hright⟩ := List.forall_mem_cons.mp h.parts
    split at hrun
    · obtain ⟨pattern, hpattern, hrun⟩ := Except.bind_eq_ok_iff.mp hrun
      cases hrun
      refine ⟨assigns_toPattern hleft hpattern, ?_⟩
      rintro _ ⟨⟩
      exact (List.forall_mem_cons.mp hright).1
    · cases hrun
  · obtain ⟨pattern, hpattern, hrun⟩ := Except.bind_eq_ok_iff.mp hrun
    cases hrun
    exact ⟨assigns_toPattern h hpattern, nofun⟩
termination_by 2 * sizeOf node + 1

theorem assigns_elementsToPattern {span : Span}
    {elements : List (ArrayElement Node)} {targets : List (PatternElement Node)}
    {rest : Option Node}
    (h : ∀ element ∈ elements, ∀ part ∈ element.parts, part.2.Assigns)
    (hrun : elementsToPattern span elements = .ok (targets, rest)) :
    (∀ target ∈ targets, ∀ part ∈ target.parts, part.2.Assigns) ∧
      ∀ value ∈ rest, value.Assigns := by
  rw [elementsToPattern.eq_def] at hrun
  split at hrun
  · cases hrun
    exact ⟨nofun, nofun⟩
  · obtain ⟨⟨others, more⟩, hothers, hrun⟩ := Except.bind_eq_ok_iff.mp hrun
    cases hrun
    obtain ⟨hothers, hrest⟩ := assigns_elementsToPattern
      (fun element hmem => h element (List.mem_cons_of_mem _ hmem)) hothers
    exact ⟨by grind [PatternElement.parts], hrest⟩
  · obtain ⟨⟨target, initial⟩, htarget, hrun⟩ := Except.bind_eq_ok_iff.mp hrun
    obtain ⟨⟨others, more⟩, hothers, hrun⟩ := Except.bind_eq_ok_iff.mp hrun
    cases hrun
    obtain ⟨hvalue, helements⟩ := List.forall_mem_cons.mp h
    obtain ⟨htarget, hinitial⟩ := assigns_toDefaultedPattern
      (List.forall_mem_cons.mp hvalue).1 htarget
    obtain ⟨hothers, hrest⟩ := assigns_elementsToPattern helements hothers
    exact ⟨by grind [PatternElement.parts], hrest⟩
  · obtain ⟨pattern, hpattern, hrun⟩ := Except.bind_eq_ok_iff.mp hrun
    split at hrun
    · cases hrun
      have hvalue := (List.forall_mem_cons.mp h).1
      have hrest :=
        assigns_toPattern (List.forall_mem_cons.mp hvalue).1 hpattern
      exact ⟨nofun, by grind⟩
    · cases hrun
termination_by 2 * sizeOf elements

theorem assigns_membersToPattern {members properties : List Node}
    {rest : Option Node} (h : ∀ member ∈ members, member.Assigns)
    (hrun : membersToPattern members = .ok (properties, rest)) :
    (∀ property ∈ properties, property.Assigns) ∧
      ∀ value ∈ rest, value.Assigns := by
  rw [membersToPattern.eq_def] at hrun
  split at hrun
  · cases hrun
    exact ⟨nofun, nofun⟩
  · obtain ⟨⟨target, initial⟩, htarget, hrun⟩ := Except.bind_eq_ok_iff.mp hrun
    obtain ⟨⟨others, more⟩, hothers, hrun⟩ := Except.bind_eq_ok_iff.mp hrun
    cases hrun
    obtain ⟨hmember, hmembers⟩ := List.forall_mem_cons.mp h
    obtain ⟨hkey, hvalue⟩ := List.forall_mem_cons.mp hmember.parts
    obtain ⟨htarget, hinitial⟩ := assigns_toDefaultedPattern
      (List.forall_mem_cons.mp hvalue).1 htarget
    obtain ⟨hothers, hrest⟩ := assigns_membersToPattern hmembers hothers
    refine ⟨List.forall_mem_cons.mpr
      ⟨(Shape.Assigns.of_parts rfl ?_).node _, hothers⟩, hrest⟩
    exact List.forall_mem_cons.mpr ⟨hkey, by grind⟩
  · obtain ⟨⟨others, more⟩, hothers, hrun⟩ := Except.bind_eq_ok_iff.mp hrun
    cases hrun
    obtain ⟨hothers, hrest⟩ := assigns_membersToPattern
      (fun member hmem => h member (List.mem_cons_of_mem _ hmem)) hothers
    have htarget {span : Span} {name : String} :
        (Node.mk span (.identPattern name)).Assigns :=
      (Shape.Assigns.of_parts rfl (by grind [Shape.parts])).node _
    have hkey {span : Span} {name : String} {kind : TokenKind} :
        (Node.mk span (.literalKey name kind)).Assigns :=
      (Shape.Assigns.of_parts rfl (by grind [Shape.parts])).node _
    refine ⟨List.forall_mem_cons.mpr
      ⟨(Shape.Assigns.of_parts rfl ?_).node _, hothers⟩, hrest⟩
    grind [Shape.parts, PropertyKey.part]
  · obtain ⟨pattern, hpattern, hrun⟩ := Except.bind_eq_ok_iff.mp hrun
    have hrest := assigns_toPattern
      ((h _ List.mem_cons_self).parts _ (List.mem_singleton_self _)) hpattern
    split at hrun
    · split at hrun
      · cases hrun
        exact ⟨nofun, by grind⟩
      · cases hrun
    · cases hrun
  · cases hrun
termination_by 2 * sizeOf members

end

/-- What the left operand of an assignment is turned into is a target. -/
theorem isTarget_toAssignmentTarget {operator : Operator} {node target : Node}
    (hrun : node.toAssignmentTarget operator = .ok target) :
    target.IsTarget operator := by
  obtain ⟨span, shape⟩ := node
  unfold toAssignmentTarget at hrun
  split at hrun
  case h_1 hshape =>
    obtain rfl := hshape
    rw [toPattern] at hrun
    cases hrun
    exact trivial
  case h_2 hshape | h_3 hshape =>
    obtain rfl := hshape
    split at hrun
    case isTrue hplain =>
      rw [toPattern] at hrun
      obtain ⟨_, _, hrun⟩ := Except.bind_eq_ok_iff.mp hrun
      cases hrun
      exact hplain
    case isFalse => cases hrun
  case h_4 hshape | h_5 hshape =>
    obtain rfl := hshape
    cases hrun
    exact ⟨_, rfl⟩
  case h_6 => cases hrun

theorem assigns_toAssignmentTarget {operator : Operator} {node target : Node}
    (h : node.Assigns) (hrun : node.toAssignmentTarget operator = .ok target) :
    target.Assigns := by
  unfold toAssignmentTarget at hrun
  split at hrun
  case h_1 => exact assigns_toPattern h hrun
  case h_2 | h_3 =>
    split at hrun
    · exact assigns_toPattern h hrun
    · cases hrun
  case h_4 | h_5 =>
    cases hrun
    exact h
  case h_6 => cases hrun

end Node

/-! ### Rules without assignments -/

namespace Parser

theorem assigns_leaf {span : Span} {shape : Shape Node} (hshape : shape.assigned? = none)
    (hparts : shape.parts = []) : (Node.mk span shape).Assigns :=
  (Shape.Assigns.leaf hshape hparts).node span

/-- Lists are read backwards. -/
theorem assigns_reverse {α : Type} {parts : α → List (Role × Node)}
    {found : List α} (h : ∀ item ∈ found, ∀ part ∈ parts item, part.2.Assigns) :
    ∀ part ∈ found.reverse.flatMap parts, part.2.Assigns :=
  List.forall_mem_flatMap.mpr fun item hmem => h item (List.mem_reverse.mp hmem)

/-- A node without parts. -/
theorem ensures_leaf {α : Type} {parser : Parser α} {shapeOf : α → Shape Node}
    (hshape : ∀ value, (shapeOf value).assigned? = none)
    (hparts : ∀ value, (shapeOf value).parts = []) :
    Ensures (node do return shapeOf (← parser)) Node.Assigns :=
  .node (.skip fun value => .pure (.leaf (hshape value) (hparts value)))

theorem ensures_booleanLiteral : Ensures booleanLiteral Node.Assigns := by
  refine .node (.skip fun _ => ?_)
  split
  · exact .pure (.leaf rfl rfl)
  · exact .pure (.leaf rfl rfl)
  · exact .fail

theorem ensures_exportItem : Ensures exportItem Node.Assigns :=
  .node (.skip fun _ => .skip fun _ => .pure (.leaf rfl rfl))

theorem ensures_exportItems : Ensures exportItems Shape.Assigns := by
  refine (Ensures.commaList ensures_exportItem).bind fun items hitems =>
    .skip fun source => ?_
  have hshape : (Shape.exportItems items source).Assigns :=
    .of_parts rfl (by grind [Shape.parts])
  have hend : Ensures (do statementEnd; return .exportItems items source)
      Shape.Assigns := .skip fun _ => .pure hshape
  refine .ite ?_ hend
  split
  · exact .skip fun _ => hend
  · exact hend

theorem ensures_exportAll : Ensures exportAll Shape.Assigns :=
  .skip fun _ => .skip fun _ => .skip fun _ => .skip fun _ =>
    .pure (.leaf rfl rfl)

end Parser

/-! ### Rules of the grammar -/

namespace Grammar

/-- The parsers of a grammar for expressions, patterns and statements read trees
whose assignments have targets. -/
structure Assigns (grammar : Grammar) : Prop where
  expressionFrom : ∀ least ends lineEnds,
    Ensures (grammar.expressionFrom least ends lineEnds) Node.Assigns
  pattern : Ensures grammar.pattern Node.Assigns
  statement : Ensures grammar.statement Node.Assigns

section Leaves

variable (grammar : Grammar)

theorem ensures_identifier : Ensures grammar.identifier Node.Assigns :=
  ensures_leaf (fun _ => rfl) fun _ => rfl

theorem ensures_namePattern : Ensures grammar.namePattern Node.Assigns :=
  ensures_leaf (fun _ => rfl) fun _ => rfl

theorem ensures_declaredName? : Ensures grammar.declaredName?
    fun name => ∀ node ∈ name, node.Assigns := by
  refine .skip fun token => .pure ?_
  cases token with
  | none => nofun
  | some token =>
      rintro _ ⟨⟩
      exact assigns_leaf rfl rfl

theorem ensures_declaredName : Ensures grammar.declaredName Node.Assigns := by
  refine .skip fun _ => grammar.ensures_declaredName?.bind fun name hname => ?_
  cases name with
  | none => exact .fail
  | some name => exact .pure (hname name rfl)

theorem ensures_metaProperty {word : Keyword} {name what : String}
    {shape : Shape Node} (hshape : shape.Assigns) :
    Ensures (metaProperty word name what shape) Node.Assigns :=
  .node (.skip fun _ => .skip fun _ => .skip fun _ =>
    .ite (.skip fun _ => .pure hshape) (.pure hshape))

theorem ensures_wordExpression {word : Keyword} {shape : Shape Node}
    (hshape : shape.Assigns) : Ensures (wordExpression word shape) Node.Assigns :=
  .node (.skip fun _ => .pure hshape)

theorem ensures_importItem : Ensures grammar.importItem Node.Assigns := by
  refine .node (.skip fun token => .skip fun imported =>
    (Ensures.afterWord grammar.ensures_namePattern).bind fun asName hname => ?_)
  cases asName with
  | some asName => exact .pure (.of_parts rfl (by grind [Shape.parts]))
  | none =>
      have hname : (Node.mk token.span (.identPattern imported.text)).Assigns :=
        assigns_leaf rfl rfl
      exact .ite (.pure (.of_parts rfl (by grind [Shape.parts]))) .fail

theorem ensures_importNames : Ensures grammar.importNames
    fun names => ∀ part ∈ names.parts, part.2.Assigns := by
  refine .skip fun token => ?_
  split
  · exact .skip fun _ => grammar.ensures_namePattern.map
      fun name hname => by grind [ImportNames.parts]
  · exact (Ensures.commaList grammar.ensures_importItem).map
      fun items hitems => by grind [ImportNames.parts]
  · exact .fail

theorem ensures_importClause : Ensures grammar.importClause fun clause =>
    (∀ name ∈ clause.1, name.Assigns) ∧
      ∀ names ∈ clause.2, ∀ part ∈ names.parts, part.2.Assigns := by
  refine .skip fun _ => .ite ?_ ?_
  · exact grammar.ensures_namePattern.bind fun name hname =>
      (Ensures.afterMark grammar.ensures_importNames).map fun names hnames =>
        ⟨by grind, hnames⟩
  · exact grammar.ensures_importNames.map fun names hnames => ⟨nofun, by grind⟩

theorem ensures_importStatement : Ensures grammar.importStatement Node.Assigns := by
  refine .node (.skip fun _ => .skip fun _ => .ite ?_ ?_)
  · exact .skip fun _ => .skip fun _ => .pure (.leaf rfl rfl)
  · refine grammar.ensures_importClause.bind fun (name, names) ⟨hname, hnames⟩ =>
      .skip fun _ => .skip fun _ => .skip fun _ => .pure (.of_parts rfl ?_)
    cases names with
    | none => grind [Shape.parts]
    | some names =>
        have hparts := hnames names rfl
        grind [Shape.parts]

end Leaves

namespace Assigns

variable {grammar : Grammar} (h : grammar.Assigns)

include h

theorem bracedStatements : Ensures grammar.bracedStatements
    fun statements => ∀ statement ∈ statements, statement.Assigns :=
  .skip fun _ => (Ensures.untilKind h.statement).bind fun _ hstatements =>
    .skip fun _ => .pure hstatements

/-! ### Literals with parts -/

theorem templateRest {isTagged : Bool} : Ensures (grammar.templateRest isTagged)
    fun rest => ∀ found ∈ rest, found.1.Assigns := by
  refine .gather fun found hfound => (h.expressionFrom _ _ _).bind
    fun value hvalue => .skip fun _ => .skip fun token => ?_
  have hall {text : String} : ∀ other ∈ (value, text) :: found, other.1.Assigns :=
    List.forall_mem_cons.mpr ⟨hvalue, hfound⟩
  split
  · exact .skip fun _ => .pure hall
  · exact .skip fun _ => .pure hall
  · exact .fail

theorem templateParts {isTagged : Bool} : Ensures (grammar.templateParts isTagged)
    fun parts => ∀ value ∈ parts.2, value.Assigns := by
  refine .skip fun token => ?_
  split
  · exact .skip fun _ => h.templateRest.map fun rest hrest =>
      List.forall_mem_map.mpr hrest
  · exact .skip fun _ => .pure (List.forall_mem_nil _)
  · exact .fail
  · exact .fail

theorem templateLiteral : Ensures grammar.templateLiteral Node.Assigns :=
  .node (h.templateParts.bind fun (texts, values) hvalues =>
    .pure (.of_parts rfl (by grind [Shape.parts])))

theorem arrayLiteral : Ensures grammar.arrayLiteral Node.Assigns := by
  let Fine (elements : List (ArrayElement Node)) : Prop :=
    ∀ element ∈ elements, ∀ part ∈ element.parts, part.2.Assigns
  refine .node (.skip fun _ => .bind (.iterate Fine Fine nofun fun found hfound =>
    .skip fun _ => .ite (.pure ?_) (.skip fun _ => .ite (.pure hfound)
      (.skip fun isSpread => (h.expressionFrom _ _ _).bind fun value hvalue => ?_)))
    fun elements helements => .skip fun _ =>
      .pure (.of_parts rfl (assigns_reverse helements)))
  · exact List.forall_mem_cons.mpr ⟨nofun, hfound⟩
  · have hall : Fine ((if isSpread then .spread value else .single value) ::
        found) := by
      grind [ArrayElement.parts]
    exact .skip fun _ => .ite (.pure hall) (.skip fun _ => .pure hall)

/-! ### Keys and patterns -/

theorem propertyKey : Ensures grammar.propertyKey fun key => key.part.2.Assigns :=
  .skip fun _ => .ite
    ((h.expressionFrom _ _ _).bind fun _ hvalue => .skip fun _ => .pure hvalue)
    (.bind (.node (.skip fun _ => .skip fun _ => .pure (.leaf rfl rfl)))
      fun _ hname => .pure hname)

theorem propertyTarget {key : PropertyKey Node} :
    Ensures (grammar.propertyTarget key) fun found => found.1.Assigns := by
  refine .skip fun _ => .ite (h.pattern.map fun _ hpattern => hpattern) ?_
  split
  · exact .ite (.pure (assigns_leaf rfl rfl)) .fail
  · exact .skip fun _ => .fail

theorem patternProperty : Ensures grammar.patternProperty Node.Assigns :=
  .node (h.propertyKey.bind fun key hkey => h.propertyTarget.bind
    fun (target, _) htarget => (Ensures.afterMark (h.expressionFrom _ _ _)).bind
      fun initial hinitial => .pure (.of_parts rfl
        (List.forall_mem_cons.mpr ⟨hkey, by grind⟩)))

theorem objectPattern : Ensures grammar.objectPattern Node.Assigns := by
  let Fine (properties : List Node) : Prop := ∀ node ∈ properties, node.Assigns
  refine .node (.skip fun _ => .bind (.iterate Fine
    (fun found => Fine found.1 ∧ ∀ rest ∈ found.2, rest.Assigns) nofun
    fun found hfound => .skip fun _ => .ite (.pure ⟨hfound, nofun⟩)
      (.skip fun _ => .ite ?_ (h.patternProperty.bind fun property hproperty => ?_)))
    fun (properties, rest) ⟨hproperties, hrest⟩ => .skip fun _ =>
      .pure (.of_parts rfl (by grind [Shape.parts])))
  · exact grammar.ensures_namePattern.map fun name hname => ⟨hfound, by grind⟩
  · have hall : Fine (property :: found) :=
      List.forall_mem_cons.mpr ⟨hproperty, hfound⟩
    exact .skip fun _ => .ite (.pure hall) (.pure ⟨hall, nofun⟩)

theorem arrayPattern : Ensures grammar.arrayPattern Node.Assigns := by
  let Fine (elements : List (PatternElement Node)) : Prop :=
    ∀ element ∈ elements, ∀ part ∈ element.parts, part.2.Assigns
  refine .node (.skip fun _ => .bind (.iterate Fine
    (fun found => Fine found.1 ∧ ∀ rest ∈ found.2, rest.Assigns) nofun
    fun found hfound => .skip fun _ => .ite (.pure ⟨hfound, nofun⟩)
      (.skip fun _ => .ite ?_ (.skip fun _ => .ite (.pure ?_) ?_)))
    fun (elements, rest) ⟨helements, hrest⟩ => .skip fun _ =>
      .pure (.of_parts rfl
        (List.forall_mem_append.mpr ⟨assigns_reverse helements, by grind⟩)))
  · exact h.pattern.map fun rest hrest => ⟨hfound, by grind⟩
  · exact List.forall_mem_cons.mpr ⟨nofun, hfound⟩
  · refine h.pattern.bind fun target htarget =>
      (Ensures.afterMark (h.expressionFrom _ _ _)).bind fun initial hinitial => ?_
    have hall : Fine (.item target initial :: found) := by
      grind [PatternElement.parts]
    exact .skip fun _ => .ite (.pure hall) (.pure ⟨hall, nofun⟩)

theorem patternRule : Ensures grammar.patternRule Node.Assigns := by
  refine .skip fun token => ?_
  split
  · exact h.objectPattern
  · exact h.arrayPattern
  · exact .ite grammar.ensures_namePattern .fail

/-! ### Functions, classes and members -/

theorem parameter : Ensures grammar.parameter Node.Assigns :=
  .node (.skip fun _ => h.pattern.bind fun pattern hpattern =>
    (Ensures.afterMark (h.expressionFrom _ _ _)).bind fun initial hinitial =>
      .pure (.of_parts rfl (by grind [Shape.parts])))

theorem parameters : Ensures grammar.parameters
    fun parameters => ∀ parameter ∈ parameters, parameter.Assigns :=
  .skip fun _ => .commaList h.parameter

theorem functionTail {isAsync isGenerator : Bool} :
    Ensures (grammar.functionTail isAsync isGenerator) Node.Assigns :=
  .node (h.parameters.bind fun parameters hparameters =>
    h.bracedStatements.bind fun body hbody =>
      .pure (.of_parts rfl (by grind [Shape.parts, FuncBody.parts])))

theorem methodMember {kind : MemberKind} {isAsync isGenerator : Bool} :
    Ensures (grammar.methodMember kind isAsync isGenerator) fun found =>
      found.1.part.2.Assigns ∧ ∀ value ∈ found.2.2, value.Assigns :=
  h.propertyKey.bind fun _ hkey => h.functionTail.bind fun _ hfunc =>
    .pure ⟨hkey, by grind⟩

theorem keyedMember {valueMark endMark : Punctuator} {lineEnds : Bool} :
    Ensures (grammar.keyedMember valueMark endMark lineEnds) fun found =>
      found.1.part.2.Assigns ∧ ∀ value ∈ found.2.2, value.Assigns :=
  h.propertyKey.bind fun _ hkey => .skip fun _ => .ite
    (h.functionTail.bind fun _ hfunc => .pure ⟨hkey, by grind⟩)
    ((Ensures.afterMark (h.expressionFrom _ _ _)).bind fun _ hvalue =>
      .pure ⟨hkey, hvalue⟩)

theorem member {valueMark endMark : Punctuator} {lineEnds : Bool} :
    Ensures (grammar.member valueMark endMark lineEnds) fun found =>
      found.1.part.2.Assigns ∧ ∀ value ∈ found.2.2, value.Assigns := by
  refine .skipPair fun first second => ?_
  dsimp only
  split
  · exact .ite h.keyedMember (.skip fun _ => h.methodMember)
  · exact .ite h.keyedMember (.skip fun _ => h.methodMember)
  · exact .ite h.keyedMember (.skip fun _ => .skip fun _ => h.methodMember)
  · exact .skip fun _ => h.methodMember
  · exact h.keyedMember

theorem classMemberShape {isStatic : Bool} : Ensures (do
      let (key, kind, value) ← grammar.member .equals .semicolon true
      let _ ← acceptMark .semicolon
      return .classMember key isStatic kind value) Shape.Assigns :=
  h.member.bind fun (key, kind, value) ⟨hkey, hvalue⟩ => .skip fun _ =>
    .pure (.of_parts rfl (List.forall_mem_cons.mpr ⟨hkey, by grind⟩))

theorem classMember : Ensures grammar.classMember Node.Assigns :=
  .node (.skipPair fun _ _ =>
    .ite (.skip fun _ => h.classMemberShape) h.classMemberShape)

theorem classBody : Ensures grammar.classBody
    fun members => ∀ member ∈ members, member.Assigns := by
  let Fine (members : List Node) : Prop := ∀ member ∈ members, member.Assigns
  refine .skip fun _ => .bind (.iterate Fine Fine nofun fun found hfound =>
    .skip fun _ => .ite (.pure hfound) (.skip fun _ => .ite (.pure hfound)
      (h.classMember.map fun member hmember =>
        List.forall_mem_cons.mpr ⟨hmember, hfound⟩)))
    fun members hmembers => .skip fun _ => .pure fun member hmem =>
      hmembers member (List.mem_reverse.mp hmem)

theorem heritage? : Ensures grammar.heritage?
    fun heritage => ∀ value ∈ heritage, value.Assigns :=
  .afterWord (h.expressionFrom _ _ _)

/-- A default of a shorthand is an assignment to a name. -/
theorem shorthandValue {span : Span} {text : String} {key : Node}
    (hkey : key.Assigns) : Ensures (do
      match ← afterMark .equals (grammar.expressionInList .braceClose) with
      | none => return .shorthandProperty (.mk span (.ident text))
      | some initial =>
          let assignment := .binary .assignment
            (.mk span (.identPattern text)) initial
          return .property (.literal key) .field
            (some (.mk (span.join initial.span) assignment))) Shape.Assigns := by
  refine (Ensures.afterMark (h.expressionFrom _ _ _)).bind
    fun initial hinitial => ?_
  have hname : (Node.mk span (.ident text)).Assigns := assigns_leaf rfl rfl
  have htarget : (Node.mk span (.identPattern text)).Assigns :=
    assigns_leaf rfl rfl
  cases initial with
  | none => exact .pure (.of_parts rfl (by grind [Shape.parts]))
  | some initial =>
      have hassignment : (Node.mk (span.join initial.span) (.binary .assignment
          (.mk span (.identPattern text)) initial)).Assigns :=
        .mk (by rintro _ ⟨⟩; exact trivial) (by grind [Shape.parts])
      exact .pure (.of_parts rfl (by grind [Shape.parts, PropertyKey.part]))

theorem shorthandMember {span : Span} {text : String} {kind : TokenKind}
    {key : Node} (hkey : key.Assigns) :
    Ensures (grammar.shorthandMember span text kind key) Shape.Assigns :=
  .ite (.skip fun _ => h.shorthandValue hkey) (h.shorthandValue hkey)

theorem objectMember : Ensures grammar.objectMember Node.Assigns := by
  refine .node (.skip fun _ => .ite ?_ ?_)
  · exact (h.expressionFrom _ _ _).map fun value hvalue =>
      .of_parts rfl (by grind [Shape.parts])
  · refine h.member.bind fun (key, kind, value) ⟨hkey, hvalue⟩ => ?_
    dsimp only
    split
    · split
      · exact h.shorthandMember hkey
      · exact .fail
    · exact .fail
    · exact .pure (.of_parts rfl (List.forall_mem_cons.mpr ⟨hkey, by grind⟩))

theorem objectLiteral : Ensures grammar.objectLiteral Node.Assigns := by
  let Fine (members : List Node) : Prop := ∀ member ∈ members, member.Assigns
  refine .node (.skip fun _ => .bind (.iterate Fine Fine nofun fun found hfound =>
    .skip fun _ => .ite (.pure hfound) (h.objectMember.bind
      fun member hmember => ?_))
    fun members hmembers => .skip fun _ =>
      .pure (.of_parts rfl (by grind [Shape.parts])))
  have hall : Fine (member :: found) := List.forall_mem_cons.mpr ⟨hmember, hfound⟩
  exact .skip fun _ => .ite (.pure hall) (.pure hall)

/-! ### Operands -/

theorem arrowHead : Ensures grammar.arrowHead
    fun head => ∀ parameter ∈ head.1, parameter.Assigns := by
  refine .skipPair fun first second => ?_
  refine .ite (.skip fun name => .skip fun _ => .pure ?_)
    (h.parameters.bind fun _ hparameters => .skip fun _ => .pure hparameters)
  have hname : (Node.mk name.span (.identPattern name.text)).Assigns :=
    assigns_leaf rfl rfl
  have hparameter : (Node.mk name.span (.parameter false
      (.mk name.span (.identPattern name.text)) none)).Assigns :=
    (Shape.Assigns.of_parts rfl (by grind [Shape.parts])).node _
  grind

theorem arrowBody {ends : List TokenKind} : Ensures (grammar.arrowBody ends)
    fun body => ∀ part ∈ body.parts, part.2.Assigns :=
  .skip fun _ => .ite
    (h.bracedStatements.map fun _ hbody => by grind [FuncBody.parts])
    ((h.expressionFrom _ _ _).map fun _ hbody => by grind [FuncBody.parts])

theorem arrowFunctionShape {ends : List TokenKind} {isAsync : Bool} :
    Ensures (do
      let (parameters, arrow) ← grammar.arrowHead
      if arrow.afterLineBreak then
        fail (arrow.error .lineBreakBeforeArrow)
      let body ← grammar.arrowBody ends
      return Shape.func true isAsync false parameters body) Shape.Assigns := by
  refine h.arrowHead.bind fun head hparameters => ?_
  obtain ⟨parameters, arrow⟩ := head
  have hbody : Ensures (do
      let body ← grammar.arrowBody ends
      return Shape.func true isAsync false parameters body) Shape.Assigns :=
    h.arrowBody.map fun body hbody =>
      .of_parts rfl (List.forall_mem_append.mpr ⟨by grind, hbody⟩)
  exact .ite (.skip fun _ => hbody) hbody

theorem arrowFunction {ends : List TokenKind} :
    Ensures (grammar.arrowFunction ends) Node.Assigns :=
  .bind (.node (.skipPair fun _ _ => .ite (.skip fun _ => h.arrowFunctionShape)
    (.skip fun _ => h.arrowFunctionShape))) fun func hfunc =>
      .pure ((Shape.Assigns.of_parts rfl (by grind [Shape.parts])).node _)

theorem arrowFunctionOr {ends : List TokenKind} {other : Parser Node}
    (hother : Ensures other Node.Assigns) :
    Ensures (grammar.arrowFunctionOr ends other) Node.Assigns := by
  refine .skip fun _ => h.arrowFunction.attempt.bind fun outcome houtcome => ?_
  cases outcome with
  | ok arrow => exact .pure (houtcome arrow rfl)
  | error error => exact .ite .fail (.skip fun _ => hother)

theorem grouping {lineEnds : Bool} :
    Ensures (grammar.grouping lineEnds) Node.Assigns :=
  .skip fun _ => (h.expressionFrom _ _ _).bind fun _ hinner =>
    .skip fun _ => .pure hinner

theorem functionExpression : Ensures grammar.functionExpression Node.Assigns :=
  .node (.skip fun _ => .skip fun _ => .skip fun _ =>
    grammar.ensures_declaredName?.bind fun name hname => h.functionTail.bind
      fun func hfunc => .pure (.of_parts rfl (by grind [Shape.parts])))

theorem classExpression : Ensures grammar.classExpression Node.Assigns :=
  .node (.skip fun _ => grammar.ensures_declaredName?.bind fun name hname =>
    h.heritage?.bind fun heritage hheritage => h.classBody.bind
      fun members hmembers => .pure (.of_parts rfl (by grind [Shape.parts])))

theorem importCall : Ensures grammar.importCall Node.Assigns :=
  .node (.skip fun _ => .skip fun _ => (h.expressionFrom _ _ _).bind
    fun source hsource => .skip fun _ => .skip fun _ =>
      .pure (.of_parts rfl (by grind [Shape.parts])))

theorem unaryExpression {ends : List TokenKind} {lineEnds : Bool} :
    Ensures (grammar.unaryExpression ends lineEnds) Node.Assigns := by
  refine .node (.skip fun token => ?_)
  split
  · exact .fail
  · refine .ite (.skip fun delegates => ?_) (.skip fun delegates => ?_)
    all_goals
      refine .skip fun next => .ite (.skip fun state => ?_) ?_
      · have hundefined : (Node.mk (.point state.lastEnd)
            (.ident "undefined")).Assigns := assigns_leaf rfl rfl
        exact .pure (.of_parts rfl (by grind [Shape.parts]))
      · exact (h.expressionFrom _ _ _).map fun operand hoperand =>
          .of_parts rfl (by grind [Shape.parts])

theorem asyncOperand {ends : List TokenKind} {second third : Token} :
    Ensures (grammar.asyncOperand ends second third) Node.Assigns :=
  .ite h.functionExpression (.ite (h.arrowFunctionOr grammar.ensures_identifier)
    (.ite h.arrowFunction grammar.ensures_identifier))

theorem wordOperand {first second : Token} {word : Keyword} :
    Ensures (grammar.wordOperand first second word) Node.Assigns := by
  unfold Grammar.wordOperand
  split
  · exact h.classExpression
  · exact h.functionExpression
  · exact .ite (ensures_metaProperty (.leaf rfl rfl))
      (.ite h.importCall .fail)
  · exact ensures_metaProperty (.leaf rfl rfl)
  · exact ensures_wordExpression (.leaf rfl rfl)
  · exact ensures_wordExpression (.leaf rfl rfl)
  · exact ensures_booleanLiteral
  · exact ensures_booleanLiteral
  · exact ensures_leaf (fun _ => rfl) fun _ => rfl
  · exact .fail

theorem otherOperand {ends : List TokenKind} {lineEnds : Bool}
    {first second : Token} :
    Ensures (grammar.otherOperand ends lineEnds first second) Node.Assigns := by
  rw [Grammar.otherOperand]
  split
  · exact h.wordOperand
  · exact ensures_leaf (fun _ => rfl) fun _ => rfl
  · exact ensures_leaf (fun _ => rfl) fun _ => rfl
  · exact ensures_leaf (fun _ => rfl) fun _ => rfl
  · exact ensures_leaf (fun _ => rfl) fun _ => rfl
  · exact h.templateLiteral
  · exact h.templateLiteral
  · exact h.arrayLiteral
  · exact h.objectLiteral
  · exact h.arrowFunctionOr h.grouping
  · exact .fail

theorem operand {ends : List TokenKind} {lineEnds : Bool} :
    Ensures (grammar.operand ends lineEnds) Node.Assigns :=
  .skip fun _ => .skip fun _ => .skip fun _ => .skip fun _ => .skip fun _ =>
    .ite h.unaryExpression (.ite h.asyncOperand
      (.ite (.ite h.arrowFunction grammar.ensures_identifier) h.otherOperand))

/-! ### Operator expressions -/

theorem argument : Ensures grammar.argument Node.Assigns :=
  .node (.skip fun _ => (h.expressionFrom _ _ _).map fun value hvalue =>
    .of_parts rfl (by grind [Shape.parts]))

theorem arguments : Ensures grammar.arguments
    fun arguments => ∀ argument ∈ arguments, argument.Assigns := by
  refine .gather fun found hfound => .skip fun _ => .ite (.pure hfound)
    (h.argument.bind fun argument hargument => ?_)
  have hall := List.forall_mem_cons.mpr ⟨hargument, hfound⟩
  exact .skip fun _ => .ite (.pure hall) (.pure hall)

theorem callOn {callee : Node} {optional : Bool} (hcallee : callee.Assigns) :
    Ensures (grammar.callOn callee optional) Node.Assigns :=
  h.arguments.bind fun arguments harguments => .skip fun _ =>
    .pure ((Shape.Assigns.of_parts rfl (by grind [Shape.parts])).node _)

theorem computedMemberOf {object : Node} {optional : Bool}
    (hobject : object.Assigns) :
    Ensures (grammar.computedMemberOf object optional) Node.Assigns :=
  (h.expressionFrom _ _ _).bind fun key hkey => .skip fun _ =>
    .pure ((Shape.Assigns.of_parts rfl (by grind [Shape.parts])).node _)

omit h in
theorem memberOf {object : Node} {optional : Bool} (hobject : object.Assigns) :
    Ensures (memberOf object optional) Node.Assigns :=
  .skip fun _ => .ite
    (.pure ((Shape.Assigns.of_parts rfl (by grind [Shape.parts])).node _)) .fail

theorem conditionalOn {test : Node} {ends : List TokenKind} {lineEnds : Bool}
    (htest : test.Assigns) :
    Ensures (grammar.conditionalOn test ends lineEnds) Node.Assigns :=
  (h.expressionFrom _ _ _).bind fun consequent hconsequent => .skip fun _ =>
    (h.expressionFrom _ _ _).map fun alternate halternate =>
      (Shape.Assigns.of_parts rfl (by grind [Shape.parts])).node _

/-- The one rule that reads assignments turns the left operand into a target
first. -/
theorem binaryOn {left : Node} {operator : Operator} {ends : List TokenKind}
    {lineEnds : Bool} (hleft : left.Assigns) :
    Ensures (grammar.binaryOn left operator ends lineEnds) Node.Assigns := by
  have hrest {target : Node} (htarget : target.Assigns)
      (hassigned : operator.isAssignment = true → target.IsTarget operator) :
      Ensures (do
        let right ←
          grammar.expressionFrom operator.rightPrecedence ends lineEnds
        return spanning target.span right.span
          (.binary operator target right)) Node.Assigns := by
    refine (h.expressionFrom _ _ _).map fun right hright =>
      .mk ?_ (by grind [Shape.parts])
    intro found hfound
    rw [Shape.assigned?] at hfound
    split at hfound
    · rename_i hassignment
      cases hfound
      exact hassigned hassignment
    · cases hfound
  rw [Grammar.binaryOn]
  dsimp only
  split
  · split
    · rename_i target htarget
      rw [pure_bind]
      exact hrest (Node.assigns_toAssignmentTarget hleft htarget)
        fun _ => Node.isTarget_toAssignmentTarget htarget
    · rw [fail_bind]
      exact .fail
  · rename_i hassignment
    rw [pure_bind]
    exact hrest hleft fun hassigned => absurd hassigned hassignment

theorem operationOn {left : Node} {operator : Operator} {ends : List TokenKind}
    {lineEnds : Bool} (hleft : left.Assigns) :
    Ensures (grammar.operationOn left operator ends lineEnds) Node.Assigns := by
  unfold Grammar.operationOn
  split
  · exact h.callOn hleft
  · exact h.callOn hleft
  · exact h.computedMemberOf hleft
  · exact h.computedMemberOf hleft
  · exact memberOf hleft
  · exact memberOf hleft
  · exact h.conditionalOn hleft
  · exact h.binaryOn hleft

theorem taggedTemplate {tag : Node} (htag : tag.Assigns) :
    Ensures (grammar.taggedTemplate tag) Node.Assigns :=
  h.templateParts.withSpan.map fun (_, texts, values) hvalues =>
    (Shape.Assigns.of_parts rfl (by grind [Shape.parts])).node _

/-- An expression that is extended keeps its assignments. -/
theorem extendExpression {least : Nat} {ends : List TokenKind} {lineEnds : Bool}
    {left : Node} (hleft : left.Assigns) :
    Ensures (grammar.extendExpression least ends lineEnds left)
      (Sum.elim Node.Assigns Node.Assigns) := by
  refine .skip fun _ => .skip fun token => .ite (.skip fun _ => .pure hleft) ?_
  split
  · exact .ite (.skip fun _ => .pure hleft) (.pure
      ((Shape.Assigns.of_parts rfl (by grind [Shape.parts])).node _))
  · refine .ite (.skip fun _ => (h.taggedTemplate hleft).map fun _ h => h) ?_
    split
    · exact .ite (.skip fun _ => .pure hleft) .fail
    · exact .ite (.skip fun _ => .pure hleft)
        ((h.operationOn hleft).map fun _ h => h)

theorem expressionRule (least : Nat) (ends : List TokenKind) (lineEnds : Bool) :
    Ensures (grammar.expressionRule least ends lineEnds) Node.Assigns :=
  h.operand.bind fun _ hfirst =>
    .iterate Node.Assigns Node.Assigns hfirst fun _ hleft =>
      h.extendExpression hleft

/-! ### Declarations -/

theorem declarator {ends : List TokenKind} {lineEnds : Bool} :
    Ensures (grammar.declarator ends lineEnds)
      fun declarator => ∀ part ∈ declarator.parts, part.2.Assigns :=
  h.pattern.bind fun pattern hpattern =>
    (Ensures.afterMark (h.expressionFrom _ _ _)).map fun initial hinitial => by
      grind [Declarator.parts]

theorem variableDeclaration : Ensures grammar.variableDeclaration Node.Assigns := by
  let Fine (declarators : List (Declarator Node)) : Prop :=
    ∀ declarator ∈ declarators, ∀ part ∈ declarator.parts, part.2.Assigns
  refine .node (.skip fun _ => .bind (.iterate Fine Fine nofun fun found hfound =>
    h.declarator.bind fun declarator hdeclarator => ?_)
    fun _ hall => .pure (.of_parts rfl (assigns_reverse hall)))
  have hall : Fine (declarator :: found) :=
    List.forall_mem_cons.mpr ⟨hdeclarator, hfound⟩
  exact .skip fun _ => .ite (.pure hall) (.skip fun _ => .pure hall)

theorem headerVariables : Ensures grammar.headerVariables Node.Assigns := by
  let Fine (declarators : List (Declarator Node)) : Prop :=
    ∀ declarator ∈ declarators, ∀ part ∈ declarator.parts, part.2.Assigns
  refine .node (.skip fun _ => .bind (.iterate Fine Fine nofun fun found hfound =>
    h.declarator.bind fun declarator hdeclarator => ?_)
    fun _ hall => .pure (.of_parts rfl (assigns_reverse hall)))
  have hall : Fine (declarator :: found) :=
    List.forall_mem_cons.mpr ⟨hdeclarator, hfound⟩
  exact .skip fun _ => .ite (.pure hall) (.pure hall)

theorem functionDeclaration : Ensures grammar.functionDeclaration Node.Assigns :=
  .node (.skip fun _ => .skip fun _ => .skip fun _ =>
    grammar.ensures_declaredName.bind fun name hname => h.functionTail.bind
      fun func hfunc => .pure (.of_parts rfl (by grind [Shape.parts])))

theorem classDeclaration : Ensures grammar.classDeclaration Node.Assigns :=
  .node (.skip fun _ => grammar.ensures_declaredName.bind fun name hname =>
    h.heritage?.bind fun heritage hheritage => h.classBody.bind
      fun members hmembers => .pure (.of_parts rfl (by grind [Shape.parts])))

/-! ### Loops -/

theorem forBody : Ensures grammar.forBody Node.Assigns :=
  .node (.skip fun _ => .ite
    (h.bracedStatements.map fun _ hbody => .of_parts rfl (by grind [Shape.parts]))
    (h.statement.map fun _ hbody => .of_parts rfl (by grind [Shape.parts])))

theorem forTarget : Ensures grammar.forTarget
    fun target => ∀ part ∈ target.parts, part.2.Assigns := by
  refine .skipPair fun first second => .ite ?_ ?_
  · exact .skip fun _ => h.pattern.map fun pattern hpattern => by
      grind [ForTarget.parts]
  · refine (h.expressionFrom _ _ _).bind fun target htarget => ?_
    split
    · rename_i pattern hpattern
      have hpattern := Node.assigns_toPattern htarget hpattern
      exact .pure (by grind [ForTarget.parts])
    · exact .fail

theorem forRest : Ensures grammar.forRest
    fun rest => rest.1.Assigns ∧ rest.2.Assigns :=
  (h.expressionFrom _ _ _).bind fun _ hsource => .skip fun _ =>
    h.forBody.map fun _ hbody => ⟨hsource, hbody⟩

theorem keysLoop : Ensures grammar.keysLoop Node.Assigns :=
  .node (.skip fun _ => .skip fun _ => h.forTarget.bind fun target htarget =>
    .skip fun _ => h.forRest.map fun (object, body) ⟨hobject, hbody⟩ =>
      .of_parts rfl (List.forall_mem_append.mpr ⟨htarget, by grind⟩))

theorem valuesLoop : Ensures grammar.valuesLoop Node.Assigns :=
  .node (.skip fun _ => .skip fun _ => .skip fun _ => h.forTarget.bind
    fun target htarget => .skip fun _ => h.forRest.map
      fun (iterable, body) ⟨hiterable, hbody⟩ =>
        .of_parts rfl (List.forall_mem_append.mpr ⟨htarget, by grind⟩))

theorem forStart : Ensures grammar.forStart
    fun start => ∀ part ∈ start.parts, part.2.Assigns :=
  .skipPair fun first second => .ite (.pure (List.forall_mem_nil _)) (.ite
    (h.headerVariables.map fun _ hvariables => by grind [ForStart.parts])
    ((h.expressionFrom _ _ _).map fun _ hvalue => by grind [ForStart.parts]))

theorem forPart {close : Punctuator} : Ensures (grammar.forPart close)
    fun part => ∀ value ∈ part, value.Assigns :=
  .skip fun _ => .ite (.pure nofun) ((h.expressionFrom _ _ _).bind
    fun _ hpart => .skip fun _ => .pure (by grind))

theorem countingLoop : Ensures grammar.countingLoop Node.Assigns :=
  .node (.skip fun _ => .skip fun _ => h.forStart.bind fun start hstart =>
    .skip fun _ => h.forPart.bind fun condition hcondition => h.forPart.bind
      fun step hstep => h.forBody.map fun body hbody =>
        .of_parts rfl (by grind [Shape.parts]))

theorem forStatement : Ensures grammar.forStatement Node.Assigns := by
  refine .skip fun _ => .skip fun kind => .skip fun _ => ?_
  cases kind with
  | counting => exact h.countingLoop
  | keys => exact h.keysLoop
  | values => exact h.valuesLoop

/-! ### Exports -/

omit h in
theorem exportDeclaration {declaration : Parser Node} {isDefault : Bool}
    (hdeclaration : Ensures declaration Node.Assigns) :
    Ensures (do return Shape.exportDeclaration isDefault (← declaration))
      Shape.Assigns :=
  hdeclaration.map fun _ hnode => .of_parts rfl (by grind [Shape.parts])

omit h in
theorem exportDefaultOf {value : Parser Node} (hvalue : Ensures value Node.Assigns) :
    Ensures (exportDefaultOf value) Shape.Assigns :=
  hvalue.bind fun _ hnode => .skip fun _ =>
    .pure (.of_parts rfl (by grind [Shape.parts]))

theorem defaultExport : Ensures grammar.defaultExport Shape.Assigns :=
  .skipPair fun first second => .ite
    (.skip fun _ => .ite (exportDeclaration h.functionDeclaration)
      (exportDefaultOf h.functionExpression))
    (.ite (.ite (exportDeclaration h.classDeclaration)
      (exportDefaultOf h.classExpression))
      ((h.expressionFrom _ _ _).bind fun _ hvalue => .skip fun _ =>
        .pure (.of_parts rfl (by grind [Shape.parts]))))

theorem exportStatement : Ensures grammar.exportStatement Node.Assigns := by
  refine .node (.skip fun _ => .skipPair fun first second => ?_)
  dsimp only
  split
  · exact .skip fun _ => ensures_exportItems
  · exact .skip fun _ => ensures_exportAll
  · exact exportDeclaration h.functionDeclaration
  · exact exportDeclaration h.functionDeclaration
  · exact exportDeclaration h.classDeclaration
  · exact .skip fun _ => h.defaultExport
  · exact .ite (exportDeclaration h.variableDeclaration) .fail

/-! ### Statements -/

theorem blockStatement : Ensures grammar.blockStatement Node.Assigns :=
  .node (h.bracedStatements.map fun _ hbody =>
    .of_parts rfl (by grind [Shape.parts]))

theorem lastExpression : Ensures grammar.lastExpression Node.Assigns :=
  (h.expressionFrom _ _ _).bind fun _ hvalue => .skip fun _ => .pure hvalue

theorem expressionStatement : Ensures grammar.expressionStatement Node.Assigns :=
  .node (h.lastExpression.map fun _ hvalue =>
    .of_parts rfl (by grind [Shape.parts]))

theorem labelledStatement : Ensures grammar.labelledStatement Node.Assigns :=
  .node (.skip fun _ => .skip fun _ => h.statement.map fun _ hbody =>
    .of_parts rfl (by grind [Shape.parts]))

theorem parenthesized : Ensures grammar.parenthesized Node.Assigns :=
  .skip fun _ => (h.expressionFrom _ _ _).bind fun _ hvalue =>
    .skip fun _ => .pure hvalue

theorem ifStatement : Ensures grammar.ifStatement Node.Assigns :=
  .node (.skip fun _ => h.parenthesized.bind fun test htest => h.statement.bind
    fun consequent hconsequent => (Ensures.afterWord h.statement).map
      fun alternate halternate => .of_parts rfl (by grind [Shape.parts]))

theorem returnStatement : Ensures grammar.returnStatement Node.Assigns :=
  .node (.skip fun _ => .skip fun _ => .ite
    (.pure (.of_parts rfl (by grind [Shape.parts]))) (.skip fun _ => .ite
      (.pure (.of_parts rfl (by grind [Shape.parts])))
      (h.lastExpression.map fun _ hvalue =>
        .of_parts rfl (by grind [Shape.parts]))))

theorem throwStatement : Ensures grammar.throwStatement Node.Assigns := by
  have hthrow : Ensures (do return Shape.throwValue (← grammar.lastExpression))
      Shape.Assigns := h.lastExpression.map fun _ hvalue =>
    .of_parts rfl (by grind [Shape.parts])
  exact .node (.skip fun _ => .skip fun _ => .ite (.skip fun _ => hthrow) hthrow)

theorem catchClause : Ensures grammar.catchClause Node.Assigns :=
  .node (.skip fun _ => (Ensures.afterMark (h.pattern.bind fun _ hpattern =>
    .skip fun _ => .pure hpattern)).bind fun caught hcaught =>
      h.bracedStatements.map fun statements hstatements =>
        .of_parts rfl (by grind [Shape.parts]))

theorem tryStatement : Ensures grammar.tryStatement Node.Assigns := by
  refine .node (.skip fun word => h.blockStatement.bind fun body hbody =>
    .skip fun _ => ?_)
  have hrest {handler : Option Node} (hhandler : ∀ node ∈ handler, node.Assigns) :
      Ensures (do
        let finalizer ← afterWord .finallyWord grammar.blockStatement
        if handler.isNone && finalizer.isNone then
          fail (word.error .tryWithoutHandler)
        return Shape.tryCatch body handler finalizer) Shape.Assigns := by
    refine (Ensures.afterWord h.blockStatement).bind fun finalizer hfinalizer => ?_
    have hshape : (Shape.tryCatch body handler finalizer).Assigns :=
      .of_parts rfl (by grind [Shape.parts])
    exact .ite (.skip fun _ => .pure hshape) (.pure hshape)
  refine .ite (h.catchClause.bind fun clause hclause => ?_) ?_
  · rw [pure_bind]
    exact hrest (by grind)
  · rw [pure_bind]
    exact hrest nofun

theorem whileStatement : Ensures grammar.whileStatement Node.Assigns :=
  .node (.skip fun _ => h.parenthesized.bind fun condition hcondition =>
    h.statement.map fun body hbody => .of_parts rfl (by grind [Shape.parts]))

theorem withStatement : Ensures grammar.withStatement Node.Assigns :=
  .node (.skip fun _ => h.parenthesized.bind fun object hobject =>
    h.statement.map fun body hbody => .of_parts rfl (by grind [Shape.parts]))

theorem doWhileStatement : Ensures grammar.doWhileStatement Node.Assigns :=
  .node (.skip fun _ => h.statement.bind fun body hbody => .skip fun _ =>
    h.parenthesized.bind fun condition hcondition => .skip fun _ =>
      .pure (.of_parts rfl (by grind [Shape.parts])))

theorem switchCase : Ensures grammar.switchCase Node.Assigns := by
  refine .node ((Ensures.afterWord (h.expressionFrom _ _ _)).bind
    fun test htest => ?_)
  refine .ite (.skip fun _ => .skip fun _ => ?_) (.skip fun _ => ?_)
  all_goals exact (Ensures.untilKind h.statement).map fun statements hstatements =>
    .of_parts rfl (by grind [Shape.parts])

theorem switchStatement : Ensures grammar.switchStatement Node.Assigns := by
  have hcases : Ensures (collect do
      if ← acceptMark .braceClose then return none
      else return some (← grammar.switchCase))
      fun cases => ∀ node ∈ cases, node.Assigns :=
    .collect (.skip fun _ => .ite (.pure nofun)
      (h.switchCase.map fun _ hcase => by grind))
  exact .node (.skip fun _ => h.parenthesized.bind fun subject hsubject =>
    .skip fun _ => hcases.map fun cases hcases =>
      .of_parts rfl (by grind [Shape.parts]))

theorem otherStatement {first second : Token} :
    Ensures (grammar.otherStatement first second) Node.Assigns :=
  .ite h.variableDeclaration (.ite h.labelledStatement h.expressionStatement)

theorem wordStatement {first second : Token} {word : Keyword} :
    Ensures (grammar.wordStatement first second word) Node.Assigns := by
  unfold Grammar.wordStatement
  split
  · exact .ite h.functionDeclaration h.otherStatement
  · exact .node (.skip fun _ => .skip fun _ => .pure (.leaf rfl rfl))
  · exact h.classDeclaration
  · exact .node (.skip fun _ => .skip fun _ => .pure (.leaf rfl rfl))
  · exact .node (.skip fun _ => .skip fun _ => .pure (.leaf rfl rfl))
  · exact h.doWhileStatement
  · exact h.exportStatement
  · exact h.forStatement
  · exact h.functionDeclaration
  · exact h.ifStatement
  · exact .ite h.expressionStatement grammar.ensures_importStatement
  · exact h.returnStatement
  · exact h.switchStatement
  · exact h.throwStatement
  · exact h.tryStatement
  · exact h.whileStatement
  · exact h.withStatement
  · exact h.otherStatement

theorem statementRule : Ensures grammar.statementRule Node.Assigns := by
  refine .skipPair fun first second => ?_
  dsimp only
  split
  · exact h.blockStatement
  · exact ensures_leaf (fun _ => rfl) fun _ => rfl
  · exact h.wordStatement
  · exact h.otherStatement

/-! ### The whole grammar -/

theorem deepen : grammar.deepen.Assigns where
  expressionFrom := h.expressionRule
  pattern := h.patternRule
  statement := h.statementRule

end Assigns

/-- Every assignment that is read has a target, however deep it is nested. -/
theorem assigns_ofDepth (rules : NameRules) (depth : Nat) :
    (ofDepth rules depth).Assigns := by
  induction depth with
  | zero => exact ⟨fun _ _ _ => .exhausted, .exhausted, .exhausted⟩
  | succ depth ih => exact ih.deepen

end Grammar

end Bundler
