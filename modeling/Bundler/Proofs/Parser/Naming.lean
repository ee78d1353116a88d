import Bundler.Proofs.Parser.Locality
import Bundler.Tree.Walk

/-!
# Names in parsed trees

A parser makes names of words only, and gives the node of a name the range of
its word.  Which names may stand where is left open here, so that what is known
of the words that are consumed can be carried over to the trees that are read: if
every one of them may stand in its range, so may every name in a tree.

Parsers yield trees, parts of trees and values without names.  For each type of
value it is said when its names fit, and a parser is judged by the values that
it yields.  The judgements follow how values and parsers are put together.
-/

namespace Bundler

/-- Whether a token of this kind may name a binding by some rules. -/
def TokenKind.mayName (kind : TokenKind) : Bool :=
  NameRules.allows ⟨true, true⟩ kind

theorem TokenKind.mayName_of_allows {rules : NameRules} {kind : TokenKind}
    (h : rules.allows kind = true) : kind.mayName = true := by
  cases kind with
  | identifier => rfl
  | keyword word => cases word <;> first | rfl | exact h
  | _ => cases h

theorem TokenKind.isWord_of_mayName {kind : TokenKind}
    (h : kind.mayName = true) : kind.isWord = true := by
  cases kind with
  | identifier => rfl
  | keyword word => rfl
  | _ => cases h

/-- The name that a node of some shape is, if it is a name.  A key counts if its
word may name a variable as well. -/
def Shape.name? {α : Type} : Shape α → Option String
  | .ident name | .identPattern name | .declaredName name => some name
  | .literalKey text kind => if kind.mayName then some text else none
  | _ => none

/-- The declaration that is exported, in the shape of an export of one. -/
def Shape.exported? {α : Type} : Shape α → Option α
  | .exportDeclaration _ declaration => some declaration
  | _ => none

theorem Shape.exported?_of_name? {α : Type} {shape : Shape α} {name : String}
    (hname : shape.name? = some name) : shape.exported? = none := by
  cases shape <;> first | rfl | cases hname

namespace Node

/-- All names in a tree stand where they may. -/
inductive Names (Allows : Span → String → Prop) : Node → Prop
  | mk {span : Span} {shape : Shape Node} :
      (∀ name, shape.name? = some name → Allows span name) →
      (∀ part ∈ shape.parts, part.2.Names Allows) →
      Names Allows (.mk span shape)

/-- All names in a tree that have a text stand behind an offset. -/
def NamesFrom (offset : Nat) (node : Node) : Prop :=
  node.Names fun span _ => span.isEmpty = false → offset ≤ span.start

variable {Allows Others : Span → String → Prop}

theorem Names.parts {node : Node} (h : node.Names Allows) :
    ∀ part ∈ node.parts, part.2.Names Allows := by
  cases h with
  | mk _ hparts => exact hparts

theorem Names.name {span : Span} {shape : Shape Node} {name : String}
    (h : (Node.mk span shape).Names Allows) (hname : shape.name? = some name) :
    Allows span name := by
  cases h with
  | mk hnames _ => exact hnames name hname

theorem Names.mono {node : Node} (h : node.Names Allows)
    (hothers : ∀ span name, Allows span name → Others span name) :
    node.Names Others := by
  induction h with
  | mk hnames _ ih =>
      exact .mk (fun name hname => hothers _ name (hnames name hname)) ih

end Node

/-- The tokens that are consumed in the end, from the first one of some part on, and
which names may stand in which ranges: at least the words among these tokens in
their own, and what a `yield` without an operand yields at any place. -/
structure Naming where
  first : Nat
  last : TokenStream
  Allows : Span → String → Prop
  word : ∀ index next, first ≤ index → index < last.consumed →
    last.buffer[index]? = some next → next.token.kind.mayName = true →
      Allows next.token.span next.token.text
  implicit : ∀ offset, Allows (.point offset) "undefined"

variable {naming : Naming}

namespace Naming

/-- Names may stand just where the words are that are consumed, and where they are
implied. -/
def ofConsumed (first : Nat) (last : TokenStream) : Naming where
  first := first
  last := last
  Allows span name :=
    (∃ token, TokenStream.Consumes first last token ∧
      token.kind.mayName = true ∧ token.span = span ∧ token.text = name) ∨
    span.isEmpty = true ∧ name = "undefined"
  word index next hfirst hindex hnext hword :=
    .inl ⟨next.token, ⟨index, next, hfirst, hindex, hnext, rfl⟩, hword, rfl, rfl⟩
  implicit _ := .inr ⟨by simp [Span.point, Span.isEmpty], rfl⟩

theorem exists_token_of_allows {first : Nat} {last : TokenStream} {span : Span}
    {name : String} (hallows : (ofConsumed first last).Allows span name)
    (htext : span.isEmpty = false) :
    ∃ token, TokenStream.Consumes first last token ∧
      token.kind.mayName = true ∧ token.span = span ∧ token.text = name := by
  rcases hallows with hword | ⟨hempty, _⟩
  · exact hword
  · rw [htext] at hempty
    cases hempty

/-- All names in a tree may stand where they stand, and those of an exported
declaration stand in its range. -/
inductive Fits (naming : Naming) : Node → Prop
  | mk {span : Span} {shape : Shape Node} :
      (∀ name, shape.name? = some name → naming.Allows span name) →
      (∀ declaration ∈ shape.exported?,
        declaration.NamesFrom declaration.span.start) →
      (∀ part ∈ shape.parts, naming.Fits part.2) →
      naming.Fits (.mk span shape)

/-- All names in some parts of a tree may stand where they stand. -/
def FitsParts (naming : Naming) (parts : List (Role × Node)) : Prop :=
  ∀ part ∈ parts, naming.Fits part.2

theorem Fits.parts {node : Node} (h : naming.Fits node) :
    naming.FitsParts node.parts := by
  cases h with
  | mk _ _ hparts => exact hparts

theorem Fits.name {span : Span} {shape : Shape Node} {name : String}
    (h : naming.Fits (.mk span shape)) (hname : shape.name? = some name) :
    naming.Allows span name := by
  cases h with
  | mk hnames _ _ => exact hnames name hname

theorem Fits.exported {node declaration : Node} (h : naming.Fits node)
    (hexported : declaration ∈ node.shape.exported?) :
    declaration.NamesFrom declaration.span.start := by
  cases h with
  | mk _ hexports _ => exact hexports declaration hexported

theorem Fits.names {node : Node} (h : naming.Fits node) :
    node.Names naming.Allows := by
  induction h with
  | mk hnames _ _ ih => exact .mk hnames ih

end Naming

/-! ### Values -/

/-- Types of values in which names may occur. -/
class HasNames (α : Type) where
  /-- All names in a value may stand where they stand. -/
  Fits : Naming → α → Prop

/-- In values of most types there are no names. -/
instance (priority := low) nameless {α : Type} : HasNames α :=
  ⟨fun _ _ => True⟩

/-- A value all of whose names may stand where they stand. -/
class Fit {α : Type} [HasNames α] (naming : Naming) (value : α) : Prop where
  fits : HasNames.Fits naming value

theorem fit_iff {α : Type} [HasNames α] {value : α} :
    Fit naming value ↔ HasNames.Fits naming value :=
  ⟨fun h => h.fits, fun h => ⟨h⟩⟩

/-- A value together with the proof that its names fit. -/
structure Fitting (naming : Naming) (α : Type) [HasNames α] where
  value : α
  fit : Fit naming value

instance : HasNames Node := ⟨Naming.Fits⟩

/-- A shape that is to become a node is no name, for which it would matter where
the node stands. -/
instance : HasNames (Shape Node) :=
  ⟨fun naming shape => shape.name? = none ∧
    (∀ declaration ∈ shape.exported?,
      declaration.NamesFrom declaration.span.start) ∧
    naming.FitsParts shape.parts⟩

instance : HasNames (PropertyKey Node) :=
  ⟨fun naming key => naming.Fits key.part.2⟩

instance : HasNames (ArrayElement Node) :=
  ⟨fun naming element => naming.FitsParts element.parts⟩

instance : HasNames (PatternElement Node) :=
  ⟨fun naming element => naming.FitsParts element.parts⟩

instance : HasNames (Declarator Node) :=
  ⟨fun naming declarator => naming.FitsParts declarator.parts⟩

instance : HasNames (FuncBody Node) :=
  ⟨fun naming body => naming.FitsParts body.parts⟩

instance : HasNames (ForTarget Node) :=
  ⟨fun naming target => naming.FitsParts target.parts⟩

instance : HasNames (ForStart Node) :=
  ⟨fun naming start => naming.FitsParts start.parts⟩

instance : HasNames (ImportNames Node) :=
  ⟨fun naming names => naming.FitsParts names.parts⟩

section Containers

variable {α β : Type} [HasNames α] [HasNames β]

instance : HasNames (Option α) :=
  ⟨fun naming value => ∀ found ∈ value, HasNames.Fits naming found⟩

instance : HasNames (List α) :=
  ⟨fun naming values => ∀ value ∈ values, HasNames.Fits naming value⟩

instance : HasNames (α × β) :=
  ⟨fun naming pair =>
    HasNames.Fits naming pair.1 ∧ HasNames.Fits naming pair.2⟩

instance : HasNames (α ⊕ β) :=
  ⟨fun naming => Sum.elim (HasNames.Fits naming) (HasNames.Fits naming)⟩

instance {ε : Type} : HasNames (Except ε α) :=
  ⟨fun naming outcome => ∀ value, outcome = .ok value →
    HasNames.Fits naming value⟩

instance (fitting : Fitting naming α) : Fit naming fitting.value := fitting.fit

instance : Fit naming (none : Option α) := ⟨by rintro _ ⟨⟩⟩

instance {value : α} [h : Fit naming value] : Fit naming (some value) :=
  ⟨by rintro _ ⟨⟩; exact h.fits⟩

instance : Fit naming ([] : List α) := ⟨by rintro _ ⟨⟩⟩

instance {value : α} {values : List α} [h : Fit naming value]
    [hvalues : Fit naming values] : Fit naming (value :: values) :=
  ⟨List.forall_mem_cons.mpr ⟨h.fits, hvalues.fits⟩⟩

instance {values : List α} [h : Fit naming values] :
    Fit naming values.reverse :=
  ⟨fun value hvalue => h.fits value (List.mem_reverse.mp hvalue)⟩

instance {first : α} {second : β} [h : Fit naming first]
    [hsecond : Fit naming second] : Fit naming (first, second) :=
  ⟨h.fits, hsecond.fits⟩

instance {pair : α × β} [h : Fit naming pair] : Fit naming pair.1 :=
  ⟨h.fits.1⟩

instance {pair : α × β} [h : Fit naming pair] : Fit naming pair.2 :=
  ⟨h.fits.2⟩

instance {pairs : List (α × β)} [h : Fit naming pairs] :
    Fit naming (pairs.map (·.1)) :=
  ⟨List.forall_mem_map.mpr fun pair hpair => (h.fits pair hpair).1⟩

instance {value : α} [h : Fit naming value] :
    Fit naming (.inl value : α ⊕ β) := ⟨h.fits⟩

instance {value : β} [h : Fit naming value] :
    Fit naming (.inr value : α ⊕ β) := ⟨h.fits⟩

instance {condition : Prop} [Decidable condition] {first second : α}
    [h : Fit naming first] [hsecond : Fit naming second] :
    Fit naming (if condition then first else second) := by
  split
  · exact h
  · exact hsecond

/-- Types without names. -/
class Nameless (α : Type) [HasNames α] : Prop where
  fit : ∀ (naming : Naming) (value : α), Fit naming value

instance {α : Type} : @Nameless α nameless :=
  @Nameless.mk α nameless fun _ _ => @Fit.mk α nameless _ _ trivial

instance [h : Nameless α] : Nameless (Option α) :=
  ⟨fun naming _ => ⟨fun value _ => (h.fit naming value).fits⟩⟩

instance [h : Nameless α] : Nameless (List α) :=
  ⟨fun naming _ => ⟨fun value _ => (h.fit naming value).fits⟩⟩

instance [h : Nameless α] [hother : Nameless β] : Nameless (α × β) :=
  ⟨fun naming pair =>
    ⟨(h.fit naming pair.1).fits, (hother.fit naming pair.2).fits⟩⟩

instance [h : Nameless α] (value : α) : Fit naming value := h.fit naming value

end Containers

/-! ### Parts -/

section Parts

variable {first second third : Node} {maybe other : Option Node}
  {nodes : List Node} {key : PropertyKey Node} {role : Role}
  {parts others : List (Role × Node)}

@[simp]
theorem fitsParts_nil : naming.FitsParts [] := by rintro _ ⟨⟩

@[simp]
theorem fitsParts_cons {part : Role × Node} :
    naming.FitsParts (part :: parts) ↔
      Fit naming part.2 ∧ naming.FitsParts parts := by
  rw [fit_iff]
  exact List.forall_mem_cons

@[simp]
theorem fitsParts_append :
    naming.FitsParts (parts ++ others) ↔
      naming.FitsParts parts ∧ naming.FitsParts others :=
  List.forall_mem_append

@[simp]
theorem fitsParts_map :
    naming.FitsParts (nodes.map (role, ·)) ↔ Fit naming nodes := by
  rw [fit_iff]
  exact List.forall_mem_map

@[simp]
theorem fit_toList : Fit naming maybe.toList ↔ Fit naming maybe := by
  rw [fit_iff, fit_iff]
  exact forall_congr' fun node => imp_congr_left Option.mem_toList

@[simp]
theorem fit_part : Fit naming key.part.2 ↔ Fit naming key := by
  rw [fit_iff, fit_iff]
  rfl

theorem fitsParts_flatMap {β : Type} [HasNames β] {values : List β}
    {partsOf : β → List (Role × Node)}
    (hparts : ∀ value, HasNames.Fits naming value ↔
      naming.FitsParts (partsOf value)) :
    naming.FitsParts (values.flatMap partsOf) ↔ Fit naming values := by
  simp only [Naming.FitsParts, List.forall_mem_flatMap]
  rw [fit_iff]
  exact forall₂_congr fun value _ => (hparts value).symm

@[simp]
theorem fitsParts_elements {elements : List (ArrayElement Node)} :
    naming.FitsParts (elements.flatMap ArrayElement.parts) ↔
      Fit naming elements := fitsParts_flatMap fun _ => .rfl

@[simp]
theorem fitsParts_patternElements {elements : List (PatternElement Node)} :
    naming.FitsParts (elements.flatMap PatternElement.parts) ↔
      Fit naming elements := fitsParts_flatMap fun _ => .rfl

@[simp]
theorem fitsParts_declarators {declarators : List (Declarator Node)} :
    naming.FitsParts (declarators.flatMap Declarator.parts) ↔
      Fit naming declarators := fitsParts_flatMap fun _ => .rfl

@[simp]
theorem fitsParts_body {body : FuncBody Node} :
    naming.FitsParts body.parts ↔ Fit naming body := by
  rw [fit_iff]
  rfl

@[simp]
theorem fitsParts_target {target : ForTarget Node} :
    naming.FitsParts target.parts ↔ Fit naming target := by
  rw [fit_iff]
  rfl

@[simp]
theorem fitsParts_start {start : ForStart Node} :
    naming.FitsParts start.parts ↔ Fit naming start := by
  rw [fit_iff]
  rfl

@[simp]
theorem fitsParts_names {names : Option (ImportNames Node)} :
    naming.FitsParts ((names.map ImportNames.parts).getD []) ↔
      Fit naming names := by
  rw [fit_iff]
  cases names with
  | none => exact ⟨fun _ => by rintro _ ⟨⟩, fun _ => fitsParts_nil⟩
  | some names => exact ⟨fun h => by rintro _ ⟨⟩; exact h, fun h => h names rfl⟩

section Shapes

instance [h : Fit naming first] : Fit naming (PropertyKey.literal first) :=
  ⟨h.fits⟩

instance [h : Fit naming first] : Fit naming (PropertyKey.computed first) :=
  ⟨h.fits⟩

instance : Fit naming (ArrayElement.hole : ArrayElement Node) :=
  ⟨by simp [HasNames.Fits, ArrayElement.parts]⟩

instance [Fit naming first] : Fit naming (ArrayElement.single first) :=
  ⟨by simp [HasNames.Fits, ArrayElement.parts, *]⟩

instance [Fit naming first] : Fit naming (ArrayElement.spread first) :=
  ⟨by simp [HasNames.Fits, ArrayElement.parts, *]⟩

instance : Fit naming (PatternElement.hole : PatternElement Node) :=
  ⟨by simp [HasNames.Fits, PatternElement.parts]⟩

instance [Fit naming first] [Fit naming maybe] :
    Fit naming (PatternElement.item first maybe) :=
  ⟨by simp [HasNames.Fits, PatternElement.parts, *]⟩

instance [Fit naming first] [Fit naming maybe] :
    Fit naming (⟨first, maybe⟩ : Declarator Node) :=
  ⟨by simp [HasNames.Fits, Declarator.parts, *]⟩

instance [Fit naming nodes] : Fit naming (FuncBody.block nodes) :=
  ⟨by simp [HasNames.Fits, FuncBody.parts, *]⟩

instance [Fit naming first] : Fit naming (FuncBody.concise first) :=
  ⟨by simp [HasNames.Fits, FuncBody.parts, *]⟩

instance [Fit naming first] : Fit naming (ForTarget.assign first) :=
  ⟨by simp [HasNames.Fits, ForTarget.parts, *]⟩

instance {kind : VarKind} [Fit naming first] :
    Fit naming (ForTarget.declare kind first) :=
  ⟨by simp [HasNames.Fits, ForTarget.parts, *]⟩

instance : Fit naming (ForStart.nothing : ForStart Node) :=
  ⟨by simp [HasNames.Fits, ForStart.parts]⟩

instance [Fit naming first] : Fit naming (ForStart.expression first) :=
  ⟨by simp [HasNames.Fits, ForStart.parts, *]⟩

instance [Fit naming first] : Fit naming (ForStart.declare first) :=
  ⟨by simp [HasNames.Fits, ForStart.parts, *]⟩

instance [Fit naming first] : Fit naming (ImportNames.all first) :=
  ⟨by simp [HasNames.Fits, ImportNames.parts, *]⟩

instance [Fit naming nodes] : Fit naming (ImportNames.items nodes) :=
  ⟨by simp [HasNames.Fits, ImportNames.parts, *]⟩

theorem Fit.of_parts {shape : Shape Node} (hname : shape.name? = none)
    (hexported : shape.exported? = none)
    (hparts : naming.FitsParts shape.parts) : Fit naming shape :=
  ⟨hname, fun _ hmem => absurd hmem (by simp [hexported]), hparts⟩

instance [Fit naming first] : Fit naming (Shape.arrow first) :=
  .of_parts rfl rfl (by simp [Shape.parts, *])

instance {operator : Operator} [Fit naming first] [Fit naming second] :
    Fit naming (Shape.binary operator first second) :=
  .of_parts rfl rfl (by simp [Shape.parts, *])

instance {optional : Bool} [Fit naming first] [Fit naming nodes] :
    Fit naming (Shape.call optional first nodes) :=
  .of_parts rfl rfl (by simp [Shape.parts, *])

instance {spread : Bool} [Fit naming first] :
    Fit naming (Shape.argument spread first) :=
  .of_parts rfl rfl (by simp [Shape.parts, *])

instance [Fit naming maybe] [Fit naming other] [Fit naming nodes] :
    Fit naming (Shape.classExpr maybe other nodes) :=
  .of_parts rfl rfl (by simp [Shape.parts, *])

instance {optional : Bool} [Fit naming first] [Fit naming second] :
    Fit naming (Shape.computedMember optional first second) :=
  .of_parts rfl rfl (by simp [Shape.parts, *])

instance [Fit naming first] [Fit naming second] [Fit naming third] :
    Fit naming (Shape.conditional first second third) :=
  .of_parts rfl rfl (by simp [Shape.parts, *])

instance [Fit naming maybe] [Fit naming first] :
    Fit naming (Shape.funcExpr maybe first) :=
  .of_parts rfl rfl (by simp [Shape.parts, *])

instance [Fit naming first] : Fit naming (Shape.importCall first) :=
  .of_parts rfl rfl (by simp [Shape.parts, *])

instance {optional : Bool} {property : String} [Fit naming first] :
    Fit naming (Shape.member optional first property) :=
  .of_parts rfl rfl (by simp [Shape.parts, *])

instance {texts : List String} [Fit naming first] [Fit naming nodes] :
    Fit naming (Shape.tagged first texts nodes) :=
  .of_parts rfl rfl (by simp [Shape.parts, *])

instance {operator : Operator} [Fit naming first] :
    Fit naming (Shape.unary operator first) :=
  .of_parts rfl rfl (by simp [Shape.parts, *])

instance {operator : Operator} [Fit naming first] :
    Fit naming (Shape.update operator first) :=
  .of_parts rfl rfl (by simp [Shape.parts, *])

instance {elements : List (ArrayElement Node)} [Fit naming elements] :
    Fit naming (Shape.array elements) :=
  .of_parts rfl rfl (by simp [Shape.parts, *])

instance [Fit naming nodes] : Fit naming (Shape.object nodes) :=
  .of_parts rfl rfl (by simp [Shape.parts, *])

instance {texts : List String} [Fit naming nodes] :
    Fit naming (Shape.template texts nodes) :=
  .of_parts rfl rfl (by simp [Shape.parts, *])

instance {elements : List (PatternElement Node)} [Fit naming elements]
    [Fit naming maybe] : Fit naming (Shape.arrayPattern elements maybe) :=
  .of_parts rfl rfl (by simp [Shape.parts, *])

instance [Fit naming nodes] [Fit naming maybe] :
    Fit naming (Shape.objectPattern nodes maybe) :=
  .of_parts rfl rfl (by simp [Shape.parts, *])

instance {shorthand : Bool} [Fit naming key] [Fit naming first]
    [Fit naming maybe] :
    Fit naming (Shape.patternProperty key first shorthand maybe) :=
  .of_parts rfl rfl (by simp [Shape.parts, *])

instance {kind : MemberKind} [Fit naming key] [Fit naming maybe] :
    Fit naming (Shape.property key kind maybe) :=
  .of_parts rfl rfl (by simp [Shape.parts, *])

instance [Fit naming first] : Fit naming (Shape.shorthandProperty first) :=
  .of_parts rfl rfl (by simp [Shape.parts, *])

instance [Fit naming first] : Fit naming (Shape.spreadProperty first) :=
  .of_parts rfl rfl (by simp [Shape.parts, *])

instance {isStatic : Bool} {kind : MemberKind} [Fit naming key]
    [Fit naming maybe] :
    Fit naming (Shape.classMember key isStatic kind maybe) :=
  .of_parts rfl rfl (by simp [Shape.parts, *])

instance {isArrow isAsync isGenerator : Bool} {body : FuncBody Node}
    [Fit naming nodes] [Fit naming body] :
    Fit naming (Shape.func isArrow isAsync isGenerator nodes body) :=
  .of_parts rfl rfl (by simp [Shape.parts, *])

instance {isRest : Bool} [Fit naming first] [Fit naming maybe] :
    Fit naming (Shape.parameter isRest first maybe) :=
  .of_parts rfl rfl (by simp [Shape.parts, *])

instance [Fit naming nodes] : Fit naming (Shape.block nodes) :=
  .of_parts rfl rfl (by simp [Shape.parts, *])

instance [Fit naming first] [Fit naming second] :
    Fit naming (Shape.doWhile first second) :=
  .of_parts rfl rfl (by simp [Shape.parts, *])

instance [Fit naming first] : Fit naming (Shape.exportDefault first) :=
  .of_parts rfl rfl (by simp [Shape.parts, *])

instance {source : Option String} [Fit naming nodes] :
    Fit naming (Shape.exportItems nodes source) :=
  .of_parts rfl rfl (by simp [Shape.parts, *])

theorem Fit.exportDeclaration {isDefault : Bool} [Fit naming first]
    (hfrom : first.NamesFrom first.span.start) :
    Fit naming (Shape.exportDeclaration isDefault first) :=
  ⟨rfl, by rintro _ ⟨⟩; exact hfrom, by simp [Shape.parts, *]⟩

instance [Fit naming first] : Fit naming (Shape.expressionStatement first) :=
  .of_parts rfl rfl (by simp [Shape.parts, *])

instance {target : ForTarget Node} [Fit naming target] [Fit naming first]
    [Fit naming second] : Fit naming (Shape.forIn target first second) :=
  .of_parts rfl rfl (by simp [Shape.parts, *])

instance {isAwait : Bool} {target : ForTarget Node} [Fit naming target]
    [Fit naming first] [Fit naming second] :
    Fit naming (Shape.forOf isAwait target first second) :=
  .of_parts rfl rfl (by simp [Shape.parts, *])

instance {start : ForStart Node} [Fit naming start] [Fit naming maybe]
    [Fit naming other] [Fit naming first] :
    Fit naming (Shape.forLoop start maybe other first) :=
  .of_parts rfl rfl (by simp [Shape.parts, *])

instance [Fit naming nodes] : Fit naming (Shape.forBody nodes) :=
  .of_parts rfl rfl (by simp [Shape.parts, *])

instance [Fit naming first] [Fit naming second] [Fit naming maybe] :
    Fit naming (Shape.ifElse first second maybe) :=
  .of_parts rfl rfl (by simp [Shape.parts, *])

instance {names : Option (ImportNames Node)} {source : String}
    [Fit naming maybe] [Fit naming names] :
    Fit naming (Shape.importFrom maybe names source) :=
  .of_parts rfl rfl (by simp [Shape.parts, *])

instance {imported : ClauseName} [Fit naming first] :
    Fit naming (Shape.importItem imported first) :=
  .of_parts rfl rfl (by simp [Shape.parts, *])

instance {label : String} [Fit naming first] :
    Fit naming (Shape.labelled label first) :=
  .of_parts rfl rfl (by simp [Shape.parts, *])

instance [Fit naming maybe] : Fit naming (Shape.returnValue maybe) :=
  .of_parts rfl rfl (by simp [Shape.parts, *])

instance [Fit naming first] [Fit naming nodes] :
    Fit naming (Shape.switch first nodes) :=
  .of_parts rfl rfl (by simp [Shape.parts, *])

instance [Fit naming maybe] [Fit naming nodes] :
    Fit naming (Shape.switchCase maybe nodes) :=
  .of_parts rfl rfl (by simp [Shape.parts, *])

instance [Fit naming first] : Fit naming (Shape.throwValue first) :=
  .of_parts rfl rfl (by simp [Shape.parts, *])

instance [Fit naming first] [Fit naming maybe] [Fit naming other] :
    Fit naming (Shape.tryCatch first maybe other) :=
  .of_parts rfl rfl (by simp [Shape.parts, *])

instance [Fit naming maybe] [Fit naming nodes] :
    Fit naming (Shape.catchClause maybe nodes) :=
  .of_parts rfl rfl (by simp [Shape.parts, *])

instance [Fit naming first] [Fit naming second] :
    Fit naming (Shape.whileLoop first second) :=
  .of_parts rfl rfl (by simp [Shape.parts, *])

instance [Fit naming first] [Fit naming second] :
    Fit naming (Shape.withObject first second) :=
  .of_parts rfl rfl (by simp [Shape.parts, *])

instance [Fit naming first] [Fit naming maybe] [Fit naming nodes] :
    Fit naming (Shape.classDeclaration first maybe nodes) :=
  .of_parts rfl rfl (by simp [Shape.parts, *])

instance [Fit naming first] [Fit naming second] :
    Fit naming (Shape.funcDeclaration first second) :=
  .of_parts rfl rfl (by simp [Shape.parts, *])

instance {kind : VarKind} {declarators : List (Declarator Node)}
    [Fit naming declarators] :
    Fit naming (Shape.varDeclaration kind declarators) :=
  .of_parts rfl rfl (by simp [Shape.parts, *])

instance : Fit naming (Shape.importMeta : Shape Node) :=
  .of_parts rfl rfl fitsParts_nil

instance : Fit naming (Shape.newTarget : Shape Node) :=
  .of_parts rfl rfl fitsParts_nil

instance : Fit naming (Shape.superRef : Shape Node) :=
  .of_parts rfl rfl fitsParts_nil

instance : Fit naming (Shape.thisRef : Shape Node) :=
  .of_parts rfl rfl fitsParts_nil

instance {digits : String} : Fit naming (Shape.bigint digits : Shape Node) :=
  .of_parts rfl rfl fitsParts_nil

instance {value : Bool} : Fit naming (Shape.boolean value : Shape Node) :=
  .of_parts rfl rfl fitsParts_nil

instance : Fit naming (Shape.null : Shape Node) :=
  .of_parts rfl rfl fitsParts_nil

instance {value : Binary64} : Fit naming (Shape.number value : Shape Node) :=
  .of_parts rfl rfl fitsParts_nil

instance {text : String} : Fit naming (Shape.regex text : Shape Node) :=
  .of_parts rfl rfl fitsParts_nil

instance {value : String} : Fit naming (Shape.string value : Shape Node) :=
  .of_parts rfl rfl fitsParts_nil

instance {label : Option String} :
    Fit naming (Shape.breakTo label : Shape Node) :=
  .of_parts rfl rfl fitsParts_nil

instance {label : Option String} :
    Fit naming (Shape.continueTo label : Shape Node) :=
  .of_parts rfl rfl fitsParts_nil

instance : Fit naming (Shape.debugger : Shape Node) :=
  .of_parts rfl rfl fitsParts_nil

instance : Fit naming (Shape.empty : Shape Node) :=
  .of_parts rfl rfl fitsParts_nil

instance {asName : Option ClauseName} {source : String} :
    Fit naming (Shape.exportAll asName source : Shape Node) :=
  .of_parts rfl rfl fitsParts_nil

instance {exported asName : ClauseName} :
    Fit naming (Shape.exportItem exported asName : Shape Node) :=
  .of_parts rfl rfl fitsParts_nil

end Shapes

instance {span : Span} {shape : Shape Node} [h : Fit naming shape] :
    Fit naming (Node.mk span shape) :=
  ⟨.mk (fun _ hname => absurd (h.fits.1.symm.trans hname) nofun) h.fits.2.1
    h.fits.2.2⟩

/-- A name may stand where it stands. -/
theorem Fit.of_name {span : Span} {shape : Shape Node} {name : String}
    (hallows : naming.Allows span name) (hname : shape.name? = some name)
    (hparts : shape.parts = []) : Fit naming (Node.mk span shape) := by
  refine ⟨.mk (fun other hother => ?_) (fun _ hexported => ?_)
    (hparts ▸ fitsParts_nil)⟩
  · obtain rfl := Option.some.inj (hname.symm.trans hother)
    exact hallows
  · rw [Shape.exported?_of_name? hname] at hexported
    cases hexported

end Parts

end Bundler
