import Bundler.Proofs.Analysis.Evaluation
import Bundler.Proofs.Parser.Ensures
import Bundler.Proofs.Parser.Sequence

/-!
# Statements that can be removed

A statement that can be dropped defines something, and nothing acts when it does.
Whether an imported name, an exported one or the body of a function acts is never
looked at: what is read in their places are plain names and functions.  Of a class
that is declared, the initial values of its instance fields are left to its
instances.
-/

namespace Bundler

open Bundler.Parser

namespace Node

/-- A member of a class that has a literal key or a method under its key, neither
of which does anything. -/
def IsMember (member : Node) : Prop :=
  match member.shape with
  | .classMember key _ kind value =>
      (∀ name, key = .literal name → name.hasEffect = false) ∧
        (kind ≠ .field → ∀ method ∈ value, method.hasEffect = false)
  | _ => False

/-- What is not looked at in a definition has no effect. -/
def HidesNoEffect : Node → Prop
  | .mk _ (.classDeclaration name _ members) =>
      name.hasEffect = false ∧ ∀ member ∈ members, member.IsMember
  | .mk _ (.exportDeclaration _ declaration) => declaration.HidesNoEffect
  | .mk span (.funcDeclaration name func) =>
      ∀ part ∈ (Node.mk span (.funcDeclaration name func)).parts,
        part.2.hasEffect = false
  | .mk span (.importFrom defaultName names source) =>
      ∀ part ∈ (Node.mk span (.importFrom defaultName names source)).parts,
        part.2.hasEffect = false
  | .mk span (.exportItems items source) =>
      ∀ part ∈ (Node.mk span (.exportItems items source)).parts,
        part.2.hasEffect = false
  | _ => True

end Node

namespace Node

/-- Statements that define, import or export something, or do nothing at all. -/
def IsDefinition : Node → Prop
  | .mk _ (.exportDeclaration _ declaration) => declaration.IsDefinition
  | .mk _ (.funcDeclaration _ _) | .mk _ (.classDeclaration _ _ _)
  | .mk _ (.varDeclaration _ _) | .mk _ (.importFrom _ _ _)
  | .mk _ (.exportAll _ _) | .mk _ (.exportItems _ _)
  | .mk _ (.exportDefault _) | .mk _ .empty => True
  | _ => False

/-- The nodes that are evaluated with a member of a class declaration, itself first:
the initial value of an instance field is not. -/
def evaluatedAsMember (member : Node) : List Node :=
  match member.shape with
  | .classMember key false .field _ => member :: key.part.2.evaluated
  | _ => member.evaluated

/-- The nodes that are evaluated when a statement of a module is, itself first. -/
def evaluatedAtDefinition : Node → List Node
  | .mk span (.exportDeclaration isDefault declaration) =>
      .mk span (.exportDeclaration isDefault declaration) ::
        declaration.evaluatedAtDefinition
  | .mk span (.classDeclaration name heritage members) =>
      .mk span (.classDeclaration name heritage members) ::
        (name.evaluated ++ heritage.toList.flatMap evaluated ++
          members.flatMap evaluatedAsMember)
  | statement => statement.evaluated

variable {node : Node}

/-- Nothing acts with a node that has no effect. -/
theorem quiet_iff : (∀ found ∈ node.evaluated, ¬ found.shape.Acts) ↔
    node.hasEffect = false := (hasEffect_eq_false_iff node).symm

theorem hasEffect_eq_false_iff_parts {span : Span} {shape : Shape Node}
    (hfunc : (Node.mk span shape).evaluatedParts = shape.parts)
    (hshape : shape.isEffect = false) :
    (Node.mk span shape).hasEffect = false ↔
      ∀ part ∈ shape.parts, part.2.hasEffect = false := by
  rw [hasEffect_eq, hfunc]
  simp [Node.shape, hshape]

theorem hasEffect_leaf {span : Span} {shape : Shape Node}
    (hshape : shape.isEffect = false) (hparts : shape.parts = []) :
    (Node.mk span shape).hasEffect = false := by
  have hnone : (Node.mk span shape).evaluatedParts = [] :=
    List.subset_nil.mp (hparts ▸ evaluatedParts_subset _)
  rw [hasEffect_eq, hnone]
  exact Bool.or_eq_false_iff.mpr ⟨hshape, rfl⟩

theorem hasEffect_func {span : Span} {isArrow isAsync isGenerator : Bool}
    {parameters : List Node} {body : FuncBody Node} :
    (Node.mk span (.func isArrow isAsync isGenerator parameters body)).hasEffect =
      false := by
  rw [hasEffect_eq]
  rfl

end Node

/-! ### What is read in definitions -/

namespace Parser

theorem quiet_leaf {α : Type} {parser : Parser α} {shapeOf : α → Shape Node}
    (hshape : ∀ value, (shapeOf value).isEffect = false)
    (hparts : ∀ value, (shapeOf value).parts = []) :
    Ensures (node do return shapeOf (← parser)) (·.hasEffect = false) :=
  .anywhere (.skip fun value => .pure fun _ =>
    Node.hasEffect_leaf (hshape value) (hparts value))

theorem quiet_exportItem : Ensures exportItem (·.hasEffect = false) :=
  .anywhere (.skip fun _ => .skip fun _ => .pure fun _ =>
    Node.hasEffect_leaf rfl rfl)

end Parser

namespace Grammar

variable (grammar : Grammar)

theorem quiet_namePattern : Ensures grammar.namePattern (·.hasEffect = false) :=
  quiet_leaf (fun _ => rfl) fun _ => rfl

theorem quiet_declaredName : Ensures grammar.declaredName (·.hasEffect = false) := by
  have hname : Ensures grammar.declaredName? fun found =>
      ∀ name ∈ found, name.hasEffect = false := by
    refine .skip fun token => .pure ?_
    cases token with
    | none => exact nofun
    | some token =>
      rintro _ ⟨⟩
      exact Node.hasEffect_leaf rfl rfl
  refine .skip fun _ => hname.bind fun found hfound => ?_
  cases found with
  | none => exact .fail
  | some name => exact .pure (hfound name rfl)

theorem quiet_functionTail {isAsync isGenerator : Bool} :
    Ensures (grammar.functionTail isAsync isGenerator) (·.hasEffect = false) :=
  .anywhere (.skip fun _ => .skip fun _ => .pure fun _ => Node.hasEffect_func)

/-- A key that is not computed does nothing. -/
theorem quiet_propertyKey : Ensures grammar.propertyKey fun key =>
    ∀ name, key = .literal name → name.hasEffect = false := by
  have hliteral : Ensures (node do
      let token ← peek
      return .literalKey (← literalKeyText token) token.kind)
      (·.hasEffect = false) :=
    .anywhere (.skip fun _ => .skip fun _ => .pure fun _ =>
      Node.hasEffect_leaf rfl rfl)
  exact .skip fun _ => .ite (.skip fun _ => .skip fun _ => .pure nofun)
    (hliteral.map fun name hname => by rintro _ ⟨⟩; exact hname)

/-- What is read as a member of a class or an object literal. -/
def ReadsMember (found : PropertyKey Node × MemberKind × Option Node) : Prop :=
  (∀ name, found.1 = .literal name → name.hasEffect = false) ∧
    (found.2.1 ≠ .field → ∀ method ∈ found.2.2, method.hasEffect = false)

theorem readsMember_methodMember {kind : MemberKind} {isAsync isGenerator : Bool} :
    Ensures (grammar.methodMember kind isAsync isGenerator) ReadsMember :=
  grammar.quiet_propertyKey.bind fun key hkey =>
    grammar.quiet_functionTail.map fun method hmethod =>
      ⟨hkey, fun _ => by rintro _ ⟨⟩; exact hmethod⟩

theorem readsMember_keyedMember {valueMark endMark : Punctuator} {lineEnds : Bool} :
    Ensures (grammar.keyedMember valueMark endMark lineEnds) ReadsMember :=
  grammar.quiet_propertyKey.bind fun key hkey => .skip fun _ => .ite
    (grammar.quiet_functionTail.map fun method hmethod =>
      ⟨hkey, fun _ => by rintro _ ⟨⟩; exact hmethod⟩)
    (.skip fun value => .pure ⟨hkey, fun hfield => absurd rfl hfield⟩)

theorem readsMember_member {valueMark endMark : Punctuator} {lineEnds : Bool} :
    Ensures (grammar.member valueMark endMark lineEnds) ReadsMember := by
  have hmethod (kind isAsync isGenerator) :
      Ensures (grammar.methodMember kind isAsync isGenerator) ReadsMember :=
    grammar.readsMember_methodMember
  have hkeyed : Ensures (grammar.keyedMember valueMark endMark lineEnds)
      ReadsMember := grammar.readsMember_keyedMember
  refine .skipPair fun first second => ?_
  dsimp only
  split
  · exact .ite hkeyed (.skip fun _ => hmethod _ _ _)
  · exact .ite hkeyed (.skip fun _ => hmethod _ _ _)
  · exact .ite hkeyed (.skip fun _ => .skip fun _ => hmethod _ _ _)
  · exact .skip fun _ => hmethod _ _ _
  · exact hkeyed

theorem isMember_classMember : Ensures grammar.classMember Node.IsMember := by
  refine .anywhere (.skipPair fun first second => .ite (.skip fun _ => ?_) ?_)
  all_goals
    refine grammar.readsMember_member.bind fun found hfound => ?_
    obtain ⟨key, kind, value⟩ := found
    exact .skip fun _ => .pure fun _ => hfound

theorem isMember_classBody :
    Ensures grammar.classBody fun members => ∀ member ∈ members, member.IsMember := by
  let Fine (members : List Node) : Prop := ∀ member ∈ members, member.IsMember
  refine .skip fun _ => Ensures.bind (show Ensures _ Fine from
    .iterate Fine Fine nofun fun found hfound => ?_) fun found hfound =>
      .skip fun _ => .pure fun member hmem => hfound member (List.mem_reverse.mp hmem)
  exact .skip fun _ => .ite (.pure hfound) (.skip fun _ => .ite (.pure hfound)
    (grammar.isMember_classMember.map fun member hmember =>
      List.forall_mem_cons.mpr ⟨hmember, hfound⟩))

theorem hides_functionDeclaration :
    Ensures grammar.functionDeclaration Node.HidesNoEffect :=
  .anywhere (.skip fun _ => .skip fun _ => .skip fun _ =>
    grammar.quiet_declaredName.bind fun _ hname =>
      grammar.quiet_functionTail.map fun _ hfunc _ =>
        List.forall_mem_cons.mpr ⟨hname, List.forall_mem_singleton.mpr hfunc⟩)

theorem hides_classDeclaration :
    Ensures grammar.classDeclaration Node.HidesNoEffect :=
  .anywhere (.skip fun _ => grammar.quiet_declaredName.bind fun _ hname =>
    .skip fun _ => grammar.isMember_classBody.map fun _ hmembers _ =>
      ⟨hname, hmembers⟩)

theorem hides_variableDeclaration :
    Ensures grammar.variableDeclaration Node.HidesNoEffect :=
  .anywhere (.skip fun _ => .skip fun _ => .pure fun _ => trivial)

/-! ### Imports and exports -/

theorem quiet_importItem : Ensures grammar.importItem (·.hasEffect = false) := by
  have hitem {imported : ClauseName} {asName : Node} (h : asName.hasEffect = false)
      (span : Span) : (Node.mk span (.importItem imported asName)).hasEffect = false :=
    (Node.hasEffect_eq_false_iff_parts rfl rfl).mpr
      (List.forall_mem_singleton.mpr h)
  refine .anywhere (.skip fun token => .skip fun imported =>
    (Ensures.afterWord grammar.quiet_namePattern).bind fun asName hasName => ?_)
  cases asName with
  | some asName => exact .pure (hitem (hasName asName rfl))
  | none => exact .ite (.pure (hitem (Node.hasEffect_leaf rfl rfl))) .fail

theorem quiet_importNames : Ensures grammar.importNames fun names =>
    ∀ part ∈ names.parts, part.2.hasEffect = false := by
  refine .skip fun token => ?_
  split
  · exact .skip fun _ => grammar.quiet_namePattern.map fun name hname =>
      List.forall_mem_singleton.mpr hname
  · exact (Ensures.commaList grammar.quiet_importItem).map fun items hitems =>
      List.forall_mem_map.mpr hitems
  · exact .fail

theorem quiet_importClause : Ensures grammar.importClause fun clause =>
    (∀ name ∈ clause.1, name.hasEffect = false) ∧
      ∀ names ∈ clause.2, ∀ part ∈ names.parts, part.2.hasEffect = false :=
  .skip fun _ => .ite
    (grammar.quiet_namePattern.bind fun name hname =>
      (Ensures.afterMark grammar.quiet_importNames).map fun names hnames =>
        ⟨by rintro _ ⟨⟩; exact hname, hnames⟩)
    (grammar.quiet_importNames.map fun names hnames =>
      ⟨nofun, by rintro _ ⟨⟩; exact hnames⟩)

theorem hides_importStatement :
    Ensures grammar.importStatement Node.HidesNoEffect := by
  refine .anywhere (.skip fun _ => .skip fun _ => .ite ?_ ?_)
  · exact .skip fun _ => .skip fun _ => .pure fun _ => nofun
  · refine grammar.quiet_importClause.bind fun (name, names) ⟨hname, hnames⟩ =>
      .skip fun _ => .skip fun _ => .skip fun _ => .pure fun span => ?_
    refine List.forall_mem_append.mpr ⟨List.forall_mem_map.mpr fun value hvalue =>
      hname value (Option.mem_toList.mp hvalue), ?_⟩
    cases names with
    | none => exact nofun
    | some names => exact hnames names rfl

theorem hides_exportItems : Ensures exportItems fun shape =>
    ∀ span, (Node.mk span shape).HidesNoEffect := by
  refine (Ensures.commaList quiet_exportItem).bind fun items hitems =>
    .skip fun source => ?_
  have hend : Ensures (do statementEnd; return Shape.exportItems items source)
      fun shape => ∀ span, (Node.mk span shape).HidesNoEffect :=
    .skip fun _ => .pure fun _ => List.forall_mem_map.mpr hitems
  refine .ite ?_ hend
  split
  · exact .skip fun _ => hend
  · exact hend

theorem hides_exportDeclaration {declaration : Parser Node} {isDefault : Bool}
    (h : Ensures declaration Node.HidesNoEffect) :
    Ensures (do return Shape.exportDeclaration isDefault (← declaration))
      fun shape => ∀ span, (Node.mk span shape).HidesNoEffect :=
  h.map fun _ hdeclaration _ => hdeclaration

theorem hides_exportDefaultOf {value : Parser Node} :
    Ensures (exportDefaultOf value) fun shape =>
      ∀ span, (Node.mk span shape).HidesNoEffect :=
  .skip fun _ => .skip fun _ => .pure fun _ => trivial

theorem hides_defaultExport : Ensures grammar.defaultExport fun shape =>
    ∀ span, (Node.mk span shape).HidesNoEffect :=
  .skipPair fun _ _ => .ite
    (.skip fun _ => .ite (hides_exportDeclaration grammar.hides_functionDeclaration)
      hides_exportDefaultOf)
    (.ite (.ite (hides_exportDeclaration grammar.hides_classDeclaration)
        hides_exportDefaultOf)
      (.skip fun _ => .skip fun _ => .pure fun _ => trivial))

theorem hides_exportStatement :
    Ensures grammar.exportStatement Node.HidesNoEffect := by
  refine .anywhere (.skip fun _ => .skipPair fun first second => ?_)
  dsimp only
  split
  · exact .skip fun _ => hides_exportItems
  · exact .skip fun _ => .skip fun _ => .skip fun _ => .skip fun _ =>
      .skip fun _ => .pure fun _ => trivial
  · exact hides_exportDeclaration grammar.hides_functionDeclaration
  · exact hides_exportDeclaration grammar.hides_functionDeclaration
  · exact hides_exportDeclaration grammar.hides_classDeclaration
  · exact .skip fun _ => grammar.hides_defaultExport
  · exact .ite (hides_exportDeclaration grammar.hides_variableDeclaration) .fail

/-! ### Statements -/

theorem hides_otherStatement {first second : Token} :
    Ensures (grammar.otherStatement first second) Node.HidesNoEffect :=
  .ite grammar.hides_variableDeclaration (.ite
    (.anywhere (.skip fun _ => .skip fun _ => .skip fun _ => .pure fun _ => trivial))
    (.anywhere (.skip fun _ => .pure fun _ => trivial)))

theorem hides_forStatement : Ensures grammar.forStatement Node.HidesNoEffect := by
  refine .skip fun _ => .skip fun kind => .skip fun _ => ?_
  cases kind
  all_goals
    refine .anywhere ?_
    repeat refine .skip fun _ => ?_
    exact .pure fun _ => trivial

theorem hides_wordStatement {first second : Token} {word : Keyword} :
    Ensures (grammar.wordStatement first second word) Node.HidesNoEffect := by
  unfold wordStatement
  split
  case h_1 => exact .ite grammar.hides_functionDeclaration grammar.hides_otherStatement
  case h_3 => exact grammar.hides_classDeclaration
  case h_7 => exact grammar.hides_exportStatement
  case h_8 => exact grammar.hides_forStatement
  case h_9 => exact grammar.hides_functionDeclaration
  case h_11 =>
    exact .ite (.anywhere (.skip fun _ => .pure fun _ => trivial))
      grammar.hides_importStatement
  case h_18 => exact grammar.hides_otherStatement
  -- The other statements define nothing.
  all_goals
    refine .anywhere ?_
    repeat' first
      | exact .pure fun _ => trivial
      | refine .skip fun _ => ?_
      | refine .ite ?_ ?_

theorem hides_statementRule : Ensures grammar.statementRule Node.HidesNoEffect := by
  refine .skipPair fun first second => ?_
  dsimp only
  split
  · exact .anywhere (.skip fun _ => .pure fun _ => trivial)
  · exact .anywhere (.skip fun _ => .pure fun _ => trivial)
  · exact grammar.hides_wordStatement
  · exact grammar.hides_otherStatement

end Grammar

namespace Program

variable {source : String} {program : Program}

/-- What is not looked at in the definitions of a program has no effect. -/
theorem hidesNoEffect_of_parse (hparse : parse source = .ok program) :
    ∀ statement ∈ program.statements, statement.HidesNoEffect := by
  obtain ⟨last, hrun⟩ := parse_eq_ok_iff.mp ⟨program, hparse, rfl⟩
  exact Ensures.untilKind
    (Grammar.hides_statementRule (Grammar.ofDepth .module _)) _ _ _ hrun

end Program

/-! ### Removable statements -/

namespace Node

section Members

variable {span : Span} {key : PropertyKey Node} {isStatic : Bool} {kind : MemberKind}
  {value : Option Node}

theorem definingHasEffect_eq
    (h : (Node.mk span (.classMember key isStatic kind value)).IsMember) :
    (Node.mk span (.classMember key isStatic kind value)).definingHasEffect =
      (key.part.2.hasEffect ||
        (isStatic && kind = .field && value.any hasEffect)) := by
  cases key with
  | literal name => rw [PropertyKey.part, h.1 name rfl]; rfl
  | computed value => rfl

theorem hasEffect_classMember :
    (Node.mk span (.classMember key isStatic kind value)).hasEffect = false ↔
      key.part.2.hasEffect = false ∧ ∀ part ∈ value, part.hasEffect = false := by
  rw [hasEffect_eq_false_iff_parts rfl rfl]
  simp [Shape.parts]

end Members

/-- A member of a class declaration has an effect exactly if one of the nodes that
are evaluated with it acts. -/
theorem definingHasEffect_eq_false_iff {member : Node} (h : member.IsMember) :
    member.definingHasEffect = false ↔
      ∀ found ∈ member.evaluatedAsMember, ¬ found.shape.Acts := by
  obtain ⟨span, shape⟩ := member
  cases shape
  case classMember key isStatic kind value =>
    rw [definingHasEffect_eq h, Bool.or_eq_false_iff]
    unfold evaluatedAsMember
    split
    case h_1 hshape =>
      cases hshape
      rw [List.forall_mem_cons, quiet_iff]
      exact ⟨fun h => ⟨nofun, h.1⟩, fun h => ⟨h.2, rfl⟩⟩
    case h_2 hshape =>
      rw [quiet_iff, hasEffect_classMember]
      refine and_congr_right fun _ => ?_
      by_cases hfield : kind = .field
      · obtain rfl := hfield
        cases isStatic with
        | false => exact absurd rfl (hshape _ _)
        | true => simp [Option.any_eq_false]
      · simp only [hfield, decide_false, Bool.and_false, Bool.false_and, true_iff]
        exact h.2 hfield
  all_goals exact h.elim

/-- A definition whose parts have no effect is one in which nothing acts. -/
theorem isDefinition_and_quiet_iff {span : Span} {shape : Shape Node}
    (hdefinition : (Node.mk span shape).IsDefinition)
    (hevaluated : (Node.mk span shape).evaluatedAtDefinition =
      (Node.mk span shape).evaluated)
    (hparts : (Node.mk span shape).evaluatedParts = shape.parts)
    (hshape : shape.isEffect = false) :
    ((Node.mk span shape).IsDefinition ∧
        ∀ found ∈ (Node.mk span shape).evaluatedAtDefinition,
          ¬ found.shape.Acts) ↔
      ∀ part ∈ shape.parts, part.2.hasEffect = false := by
  rw [and_iff_right hdefinition, hevaluated, quiet_iff,
    hasEffect_eq_false_iff_parts hparts hshape]

theorem isRemovable_iff {statement : Node} (h : statement.HidesNoEffect) :
    statement.isRemovable = true ↔
      statement.IsDefinition ∧
        ∀ found ∈ statement.evaluatedAtDefinition, ¬ found.shape.Acts := by
  induction statement using parts_induction with
  | hnode statement ih =>
  obtain ⟨span, shape⟩ := statement
  cases shape
  case exportDeclaration isDefault declaration =>
    rw [isRemovable, IsDefinition, evaluatedAtDefinition, List.forall_mem_cons,
      ih (.plain, declaration) List.mem_cons_self h]
    exact and_congr_right fun _ => ⟨fun hquiet => ⟨nofun, hquiet⟩, And.right⟩
  case classDeclaration name heritage members =>
    obtain ⟨hname, hmembers⟩ := h
    have hheritage : (heritage.any hasEffect = false) ↔
        ∀ node ∈ heritage.toList, ∀ found ∈ node.evaluated,
          ¬ found.shape.Acts := by
      cases heritage <;> simp [quiet_iff]
    have hdefining : (members.any definingHasEffect = false) ↔
        ∀ member ∈ members, ∀ found ∈ member.evaluatedAsMember,
          ¬ found.shape.Acts := by
      rw [List.any_eq_false]
      refine forall₂_congr fun member hmem => ?_
      rw [Bool.not_eq_true, definingHasEffect_eq_false_iff (hmembers member hmem)]
    rw [isRemovable, IsDefinition, evaluatedAtDefinition, Bool.and_eq_true,
      Bool.not_eq_true', Bool.not_eq_true', hheritage, hdefining, true_and,
      List.forall_mem_cons, List.forall_mem_append, List.forall_mem_append,
      List.forall_mem_flatMap, List.forall_mem_flatMap, quiet_iff]
    exact ⟨fun h => ⟨nofun, ⟨hname, h.1⟩, h.2⟩, fun h => ⟨h.2.1.2, h.2.2⟩⟩
  case varDeclaration kind declarators =>
    refine .trans ?_ (isDefinition_and_quiet_iff ?_ rfl rfl rfl).symm
    · rw [isRemovable, Shape.parts, List.forall_mem_flatMap, List.all_eq_true]
      refine forall₂_congr fun ⟨pattern, initial⟩ _ => ?_
      cases initial <;> simp [Declarator.parts]
    · trivial
  case exportDefault value =>
    refine .trans ?_ (isDefinition_and_quiet_iff ?_ rfl rfl rfl).symm
    · simp [isRemovable, Shape.parts]
    · trivial
  case exportAll | empty =>
    refine iff_of_true rfl ((isDefinition_and_quiet_iff ?_ rfl rfl rfl).mpr nofun)
    trivial
  case funcDeclaration | importFrom | exportItems =>
    refine iff_of_true rfl ((isDefinition_and_quiet_iff ?_ rfl rfl rfl).mpr h)
    trivial
  all_goals exact iff_of_false Bool.false_ne_true fun h => h.1

end Node

namespace Program

variable {source : String} {program : Program}

/-- A statement of a program is removable exactly if it defines, imports or exports
something, or does nothing, and no node that is evaluated when it is defined is a
call, an import by a call, a tagged template, an assignment, an update, or a `new`, a
`delete`, an `await` or a `yield`. -/
theorem removable_iff (hparse : parse source = .ok program) {statement : Node}
    (hmem : statement ∈ program.statements) :
    statement.isRemovable = true ↔
      statement.IsDefinition ∧
        ∀ found ∈ statement.evaluatedAtDefinition, ¬ found.shape.Acts :=
  Node.isRemovable_iff (hidesNoEffect_of_parse hparse statement hmem)

/-- A class whose methods and whose instances call something can be removed. -/
theorem removable_iff_methods : ∃ program,
    parse "class A { m() { f(); } x = g(); static y = 1; }" = .ok program ∧
      ∃ statement ∈ program.statements,
        (∃ found ∈ statement.preorder .statement, found.2.shape.Acts) ∧
          statement.IsDefinition ∧
          ∀ found ∈ statement.evaluatedAtDefinition, ¬ found.shape.Acts := by
  have hfacts : ((parse
      "class A { m() { f(); } x = g(); static y = 1; }").toOption.any fun program =>
        program.statements.any fun statement => statement.isRemovable &&
          (statement.preorder .statement).any fun found =>
            found.2.shape.isEffect) = true := by
    decide +kernel
  obtain ⟨program, hparse, hany⟩ := Except.exists_of_any_toOption hfacts
  simp only [List.any_eq_true, Bool.and_eq_true] at hany
  obtain ⟨statement, hmem, hremovable, found, hfound, heffect⟩ := hany
  exact ⟨program, hparse, statement, hmem,
    ⟨found, hfound, Shape.isEffect_iff.mp heffect⟩,
    (removable_iff hparse hmem).mp hremovable⟩

end Program

end Bundler
