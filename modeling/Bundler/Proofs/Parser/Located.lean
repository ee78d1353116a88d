import Bundler.Proofs.Lexer.Gaps
import Bundler.Proofs.Outcome
import Bundler.Tree.Walk

/-!
# Places of trees

A tree is well placed if each of its nodes spans a range of the text, on
character boundaries and not reversed, and lies within the range of the node
that it is a part of.

Parsers yield trees, parts of trees, tokens and errors.  For each type of value
it is said when it is placed within some bounds, and from how a value is put
together it follows that it is.
-/

namespace Bundler

/-- A text and a range of it. -/
structure Bounds where
  text : List Char
  span : Span

/-- All nodes of a tree span ranges of a text, each within the range of the node
it is a part of, and the whole tree within an outer range. -/
inductive Node.Located (text : List Char) : Span → Node → Prop
  | mk {outer span : Span} {shape : Shape Node} :
      span.IsIn text → outer.contains span = true →
      (∀ part ∈ shape.parts, part.2.Located text span) →
      Located text outer (.mk span shape)

namespace Node.Located

variable {text : List Char} {outer : Span} {node : Node}

theorem isIn (h : node.Located text outer) : node.span.IsIn text := by
  cases h with
  | mk hspan _ _ => exact hspan

theorem contains (h : node.Located text outer) :
    outer.contains node.span = true := by
  cases h with
  | mk _ hcontains _ => exact hcontains

theorem parts (h : node.Located text outer) :
    ∀ part ∈ node.parts, part.2.Located text node.span := by
  cases h with
  | mk _ _ hparts => exact hparts

/-- A tree lies in every range that contains that of its root. -/
theorem within (h : node.Located text outer) {wider : Span}
    (hcontains : wider.contains node.span = true) :
    node.Located text wider := by
  cases h with
  | mk hspan _ hparts => exact .mk hspan hcontains hparts

theorem mono (h : node.Located text outer) {wider : Span}
    (hcontains : wider.contains outer = true) : node.Located text wider :=
  h.within (Span.contains_trans hcontains h.contains)

end Node.Located

variable {bounds : Bounds}

namespace Bounds

/-- A range of the text within the bounds. -/
def Covers (bounds : Bounds) (span : Span) : Prop :=
  span.IsIn bounds.text ∧ bounds.span.contains span = true

/-- All parts of a tree lie within the bounds. -/
def CoversParts (bounds : Bounds) (parts : List (Role × Node)) : Prop :=
  ∀ part ∈ parts, part.2.Located bounds.text bounds.span

theorem Covers.join {left right : Span} (hleft : bounds.Covers left)
    (hright : bounds.Covers right) : bounds.Covers (left.join right) :=
  ⟨hleft.1.join hright.1, Span.contains_join hleft.2 hright.2⟩

end Bounds

/-! ### Values -/

/-- Types of values that have a place. -/
class HasPlaces (α : Type) where
  /-- All that a value consists of is within some bounds. -/
  IsPlaced : Bounds → α → Prop

/-- Values of most types have no place. -/
instance (priority := low) placeless {α : Type} : HasPlaces α :=
  ⟨fun _ _ => True⟩

/-- A value that is within some bounds. -/
class Placed {α : Type} [HasPlaces α] (bounds : Bounds) (value : α) :
    Prop where
  placed : HasPlaces.IsPlaced bounds value

theorem placed_iff {α : Type} [HasPlaces α] {value : α} :
    Placed bounds value ↔ HasPlaces.IsPlaced bounds value :=
  ⟨fun h => h.placed, fun h => ⟨h⟩⟩

/-- A value together with the proof that it is within some bounds. -/
structure PlacedValue (bounds : Bounds) (α : Type) [HasPlaces α] where
  value : α
  placed : Placed bounds value

/-- Ranges are taken of what is consumed only. -/
instance : HasPlaces Span := ⟨Bounds.Covers⟩

/-- A token may have been looked at only, so it may be outside of the bounds. -/
instance : HasPlaces Token := ⟨fun bounds token => token.IsIn bounds.text⟩

instance : HasPlaces SyntaxError :=
  ⟨fun bounds error => error.span.IsIn bounds.text⟩

instance : HasPlaces Node :=
  ⟨fun bounds node => node.Located bounds.text bounds.span⟩

instance : HasPlaces (Shape Node) :=
  ⟨fun bounds shape => bounds.CoversParts shape.parts⟩

instance : HasPlaces (PropertyKey Node) :=
  ⟨fun bounds key => key.part.2.Located bounds.text bounds.span⟩

instance : HasPlaces (ArrayElement Node) :=
  ⟨fun bounds element => bounds.CoversParts element.parts⟩

instance : HasPlaces (PatternElement Node) :=
  ⟨fun bounds element => bounds.CoversParts element.parts⟩

instance : HasPlaces (Declarator Node) :=
  ⟨fun bounds declarator => bounds.CoversParts declarator.parts⟩

instance : HasPlaces (FuncBody Node) :=
  ⟨fun bounds body => bounds.CoversParts body.parts⟩

instance : HasPlaces (ForTarget Node) :=
  ⟨fun bounds target => bounds.CoversParts target.parts⟩

instance : HasPlaces (ForStart Node) :=
  ⟨fun bounds start => bounds.CoversParts start.parts⟩

instance : HasPlaces (ImportNames Node) :=
  ⟨fun bounds names => bounds.CoversParts names.parts⟩

section Containers

variable {α β : Type} [HasPlaces α] [HasPlaces β]

instance : HasPlaces (Option α) :=
  ⟨fun bounds value => ∀ found ∈ value, HasPlaces.IsPlaced bounds found⟩

instance : HasPlaces (List α) :=
  ⟨fun bounds values => ∀ value ∈ values, HasPlaces.IsPlaced bounds value⟩

instance : HasPlaces (α × β) :=
  ⟨fun bounds pair =>
    HasPlaces.IsPlaced bounds pair.1 ∧ HasPlaces.IsPlaced bounds pair.2⟩

instance : HasPlaces (α ⊕ β) :=
  ⟨fun bounds =>
    Sum.elim (HasPlaces.IsPlaced bounds) (HasPlaces.IsPlaced bounds)⟩

instance : HasPlaces (Except α β) :=
  ⟨fun bounds outcome => match outcome with
    | .ok value => HasPlaces.IsPlaced bounds value
    | .error error => HasPlaces.IsPlaced bounds error⟩

instance {found : PlacedValue bounds α} : Placed bounds found.value :=
  found.placed

instance : Placed bounds (none : Option α) := ⟨by rintro _ ⟨⟩⟩

instance {value : α} [h : Placed bounds value] :
    Placed bounds (some value) := ⟨by rintro _ ⟨⟩; exact h.placed⟩

theorem Placed.of_some {value : α} (h : Placed bounds (some value)) :
    Placed bounds value := ⟨h.placed value rfl⟩

instance : Placed bounds ([] : List α) := ⟨by rintro _ ⟨⟩⟩

instance {value : α} {values : List α} [h : Placed bounds value]
    [hvalues : Placed bounds values] : Placed bounds (value :: values) :=
  ⟨List.forall_mem_cons.mpr ⟨h.placed, hvalues.placed⟩⟩

instance {values : List α} [h : Placed bounds values] :
    Placed bounds values.reverse :=
  ⟨fun value hvalue => h.placed value (List.mem_reverse.mp hvalue)⟩

instance {first : α} {second : β} [h : Placed bounds first]
    [hsecond : Placed bounds second] : Placed bounds (first, second) :=
  ⟨h.placed, hsecond.placed⟩

instance {pair : α × β} [h : Placed bounds pair] : Placed bounds pair.1 :=
  ⟨h.placed.1⟩

instance {pair : α × β} [h : Placed bounds pair] : Placed bounds pair.2 :=
  ⟨h.placed.2⟩

theorem Placed.pair {first : α} {second : β}
    (h : Placed bounds (first, second)) :
    Placed bounds first ∧ Placed bounds second :=
  ⟨⟨h.placed.1⟩, ⟨h.placed.2⟩⟩

instance {pairs : List (α × β)} [h : Placed bounds pairs] :
    Placed bounds (pairs.map (·.1)) :=
  ⟨List.forall_mem_map.mpr fun pair hpair => (h.placed pair hpair).1⟩

instance {value : α} [h : Placed bounds value] :
    Placed bounds (.inl value : α ⊕ β) := ⟨h.placed⟩

instance {value : β} [h : Placed bounds value] :
    Placed bounds (.inr value : α ⊕ β) := ⟨h.placed⟩

instance {condition : Prop} [Decidable condition] {first second : α}
    [h : Placed bounds first] [hsecond : Placed bounds second] :
    Placed bounds (if condition then first else second) := by
  split
  · exact h
  · exact hsecond

/-- Types without places. -/
class Placeless (α : Type) [HasPlaces α] : Prop where
  placed : ∀ (bounds : Bounds) (value : α), Placed bounds value

instance {α : Type} : @Placeless α placeless :=
  @Placeless.mk α placeless fun _ _ => @Placed.mk α placeless _ _ trivial

instance [h : Placeless α] : Placeless (Option α) :=
  ⟨fun bounds _ => ⟨fun value _ => (h.placed bounds value).placed⟩⟩

instance [h : Placeless α] : Placeless (List α) :=
  ⟨fun bounds _ => ⟨fun value _ => (h.placed bounds value).placed⟩⟩

instance [h : Placeless α] [hother : Placeless β] : Placeless (α × β) :=
  ⟨fun bounds pair =>
    ⟨(h.placed bounds pair.1).placed, (hother.placed bounds pair.2).placed⟩⟩

instance [h : Placeless α] {value : α} : Placed bounds value :=
  h.placed bounds value

end Containers

/-! ### Errors -/

instance {token : Token} [h : Placed bounds token] {fault : SyntaxFault} :
    Placed bounds (token.error fault) := ⟨h.placed.span⟩

instance {span : Span} [h : Placed bounds span] {fault : SyntaxFault} :
    Placed bounds (span.error fault) := ⟨h.placed.1⟩

instance {node : Node} [h : Placed bounds node] : Placed bounds node.span :=
  ⟨h.placed.isIn, h.placed.contains⟩

/-! ### Parts -/

section Parts

variable {first second third : Node} {maybe other : Option Node}
  {nodes : List Node} {key : PropertyKey Node} {role : Role}
  {parts others : List (Role × Node)}

@[simp]
theorem coversParts_nil : bounds.CoversParts [] := by rintro _ ⟨⟩

@[simp]
theorem coversParts_cons {part : Role × Node} :
    bounds.CoversParts (part :: parts) ↔
      Placed bounds part.2 ∧ bounds.CoversParts parts := by
  rw [placed_iff]
  exact List.forall_mem_cons

@[simp]
theorem coversParts_append :
    bounds.CoversParts (parts ++ others) ↔
      bounds.CoversParts parts ∧ bounds.CoversParts others :=
  List.forall_mem_append

@[simp]
theorem coversParts_map :
    bounds.CoversParts (nodes.map (role, ·)) ↔ Placed bounds nodes := by
  rw [placed_iff]
  exact List.forall_mem_map

@[simp]
theorem placed_toList :
    Placed bounds maybe.toList ↔ Placed bounds maybe := by
  rw [placed_iff, placed_iff]
  exact forall_congr' fun node => imp_congr_left Option.mem_toList

@[simp]
theorem placed_part : Placed bounds key.part.2 ↔ Placed bounds key := by
  rw [placed_iff, placed_iff]
  rfl

theorem coversParts_flatMap {β : Type} [HasPlaces β] {values : List β}
    {partsOf : β → List (Role × Node)}
    (hparts : ∀ value, HasPlaces.IsPlaced bounds value ↔
      bounds.CoversParts (partsOf value)) :
    bounds.CoversParts (values.flatMap partsOf) ↔ Placed bounds values := by
  simp only [Bounds.CoversParts, List.forall_mem_flatMap]
  rw [placed_iff]
  exact forall₂_congr fun value _ => (hparts value).symm

@[simp]
theorem coversParts_elements {elements : List (ArrayElement Node)} :
    bounds.CoversParts (elements.flatMap ArrayElement.parts) ↔
      Placed bounds elements := coversParts_flatMap fun _ => .rfl

@[simp]
theorem coversParts_patternElements
    {elements : List (PatternElement Node)} :
    bounds.CoversParts (elements.flatMap PatternElement.parts) ↔
      Placed bounds elements := coversParts_flatMap fun _ => .rfl

@[simp]
theorem coversParts_declarators {declarators : List (Declarator Node)} :
    bounds.CoversParts (declarators.flatMap Declarator.parts) ↔
      Placed bounds declarators := coversParts_flatMap fun _ => .rfl

@[simp]
theorem coversParts_body {body : FuncBody Node} :
    bounds.CoversParts body.parts ↔ Placed bounds body := by
  rw [placed_iff]
  rfl

@[simp]
theorem coversParts_target {target : ForTarget Node} :
    bounds.CoversParts target.parts ↔ Placed bounds target := by
  rw [placed_iff]
  rfl

@[simp]
theorem coversParts_start {start : ForStart Node} :
    bounds.CoversParts start.parts ↔ Placed bounds start := by
  rw [placed_iff]
  rfl

@[simp]
theorem coversParts_names {names : Option (ImportNames Node)} :
    bounds.CoversParts ((names.map ImportNames.parts).getD []) ↔
      Placed bounds names := by
  rw [placed_iff]
  cases names with
  | none => exact ⟨fun _ => by rintro _ ⟨⟩, fun _ => coversParts_nil⟩
  | some names => exact ⟨fun h => by rintro _ ⟨⟩; exact h, fun h => h names rfl⟩

section Shapes

instance [h : Placed bounds first] :
    Placed bounds (PropertyKey.literal first) :=
  ⟨h.placed⟩

instance [h : Placed bounds first] :
    Placed bounds (PropertyKey.computed first) :=
  ⟨h.placed⟩

instance : Placed bounds (ArrayElement.hole : ArrayElement Node) :=
  ⟨by simp [HasPlaces.IsPlaced, ArrayElement.parts]⟩

instance [Placed bounds first] : Placed bounds (ArrayElement.single first) :=
  ⟨by simp [HasPlaces.IsPlaced, ArrayElement.parts, *]⟩

instance [Placed bounds first] : Placed bounds (ArrayElement.spread first) :=
  ⟨by simp [HasPlaces.IsPlaced, ArrayElement.parts, *]⟩

instance : Placed bounds (PatternElement.hole : PatternElement Node) :=
  ⟨by simp [HasPlaces.IsPlaced, PatternElement.parts]⟩

instance [Placed bounds first] [Placed bounds maybe] :
    Placed bounds (PatternElement.item first maybe) :=
  ⟨by simp [HasPlaces.IsPlaced, PatternElement.parts, *]⟩

instance [Placed bounds first] [Placed bounds maybe] :
    Placed bounds (⟨first, maybe⟩ : Declarator Node) :=
  ⟨by simp [HasPlaces.IsPlaced, Declarator.parts, *]⟩

instance [Placed bounds nodes] : Placed bounds (FuncBody.block nodes) :=
  ⟨by simp [HasPlaces.IsPlaced, FuncBody.parts, *]⟩

instance [Placed bounds first] : Placed bounds (FuncBody.concise first) :=
  ⟨by simp [HasPlaces.IsPlaced, FuncBody.parts, *]⟩

instance [Placed bounds first] : Placed bounds (ForTarget.assign first) :=
  ⟨by simp [HasPlaces.IsPlaced, ForTarget.parts, *]⟩

instance {kind : VarKind} [Placed bounds first] :
    Placed bounds (ForTarget.declare kind first) :=
  ⟨by simp [HasPlaces.IsPlaced, ForTarget.parts, *]⟩

instance : Placed bounds (ForStart.nothing : ForStart Node) :=
  ⟨by simp [HasPlaces.IsPlaced, ForStart.parts]⟩

instance [Placed bounds first] : Placed bounds (ForStart.expression first) :=
  ⟨by simp [HasPlaces.IsPlaced, ForStart.parts, *]⟩

instance [Placed bounds first] : Placed bounds (ForStart.declare first) :=
  ⟨by simp [HasPlaces.IsPlaced, ForStart.parts, *]⟩

instance [Placed bounds first] : Placed bounds (ImportNames.all first) :=
  ⟨by simp [HasPlaces.IsPlaced, ImportNames.parts, *]⟩

instance [Placed bounds nodes] : Placed bounds (ImportNames.items nodes) :=
  ⟨by simp [HasPlaces.IsPlaced, ImportNames.parts, *]⟩

theorem Placed.of_parts {shape : Shape Node}
    (hparts : bounds.CoversParts shape.parts) : Placed bounds shape := ⟨hparts⟩

instance [Placed bounds first] : Placed bounds (Shape.arrow first) :=
  .of_parts (by simp [Shape.parts, *])

instance {operator : Operator} [Placed bounds first] [Placed bounds second] :
    Placed bounds (Shape.binary operator first second) :=
  .of_parts (by simp [Shape.parts, *])

instance {optional : Bool} [Placed bounds first] [Placed bounds nodes] :
    Placed bounds (Shape.call optional first nodes) :=
  .of_parts (by simp [Shape.parts, *])

instance {spread : Bool} [Placed bounds first] :
    Placed bounds (Shape.argument spread first) :=
  .of_parts (by simp [Shape.parts, *])

instance [Placed bounds maybe] [Placed bounds other] [Placed bounds nodes] :
    Placed bounds (Shape.classExpr maybe other nodes) :=
  .of_parts (by simp [Shape.parts, *])

instance {optional : Bool} [Placed bounds first] [Placed bounds second] :
    Placed bounds (Shape.computedMember optional first second) :=
  .of_parts (by simp [Shape.parts, *])

instance [Placed bounds first] [Placed bounds second] [Placed bounds third] :
    Placed bounds (Shape.conditional first second third) :=
  .of_parts (by simp [Shape.parts, *])

instance [Placed bounds maybe] [Placed bounds first] :
    Placed bounds (Shape.funcExpr maybe first) :=
  .of_parts (by simp [Shape.parts, *])

instance [Placed bounds first] : Placed bounds (Shape.importCall first) :=
  .of_parts (by simp [Shape.parts, *])

instance {optional : Bool} {property : String} [Placed bounds first] :
    Placed bounds (Shape.member optional first property) :=
  .of_parts (by simp [Shape.parts, *])

instance {texts : List String} [Placed bounds first] [Placed bounds nodes] :
    Placed bounds (Shape.tagged first texts nodes) :=
  .of_parts (by simp [Shape.parts, *])

instance {operator : Operator} [Placed bounds first] :
    Placed bounds (Shape.unary operator first) :=
  .of_parts (by simp [Shape.parts, *])

instance {operator : Operator} [Placed bounds first] :
    Placed bounds (Shape.update operator first) :=
  .of_parts (by simp [Shape.parts, *])

instance {elements : List (ArrayElement Node)} [Placed bounds elements] :
    Placed bounds (Shape.array elements) :=
  .of_parts (by simp [Shape.parts, *])

instance [Placed bounds nodes] : Placed bounds (Shape.object nodes) :=
  .of_parts (by simp [Shape.parts, *])

instance {texts : List String} [Placed bounds nodes] :
    Placed bounds (Shape.template texts nodes) :=
  .of_parts (by simp [Shape.parts, *])

instance {elements : List (PatternElement Node)} [Placed bounds elements]
    [Placed bounds maybe] : Placed bounds (Shape.arrayPattern elements maybe) :=
  .of_parts (by simp [Shape.parts, *])

instance [Placed bounds nodes] [Placed bounds maybe] :
    Placed bounds (Shape.objectPattern nodes maybe) :=
  .of_parts (by simp [Shape.parts, *])

instance {shorthand : Bool} [Placed bounds key] [Placed bounds first]
    [Placed bounds maybe] :
    Placed bounds (Shape.patternProperty key first shorthand maybe) :=
  .of_parts (by simp [Shape.parts, *])

instance {kind : MemberKind} [Placed bounds key] [Placed bounds maybe] :
    Placed bounds (Shape.property key kind maybe) :=
  .of_parts (by simp [Shape.parts, *])

instance [Placed bounds first] :
    Placed bounds (Shape.shorthandProperty first) :=
  .of_parts (by simp [Shape.parts, *])

instance [Placed bounds first] : Placed bounds (Shape.spreadProperty first) :=
  .of_parts (by simp [Shape.parts, *])

instance {isStatic : Bool} {kind : MemberKind} [Placed bounds key]
    [Placed bounds maybe] :
    Placed bounds (Shape.classMember key isStatic kind maybe) :=
  .of_parts (by simp [Shape.parts, *])

instance {isArrow isAsync isGenerator : Bool} {body : FuncBody Node}
    [Placed bounds nodes] [Placed bounds body] :
    Placed bounds (Shape.func isArrow isAsync isGenerator nodes body) :=
  .of_parts (by simp [Shape.parts, *])

instance {isRest : Bool} [Placed bounds first] [Placed bounds maybe] :
    Placed bounds (Shape.parameter isRest first maybe) :=
  .of_parts (by simp [Shape.parts, *])

instance [Placed bounds nodes] : Placed bounds (Shape.block nodes) :=
  .of_parts (by simp [Shape.parts, *])

instance [Placed bounds first] [Placed bounds second] :
    Placed bounds (Shape.doWhile first second) :=
  .of_parts (by simp [Shape.parts, *])

instance [Placed bounds first] : Placed bounds (Shape.exportDefault first) :=
  .of_parts (by simp [Shape.parts, *])

instance {source : Option String} [Placed bounds nodes] :
    Placed bounds (Shape.exportItems nodes source) :=
  .of_parts (by simp [Shape.parts, *])

instance {isDefault : Bool} [Placed bounds first] :
    Placed bounds (Shape.exportDeclaration isDefault first) :=
  .of_parts (by simp [Shape.parts, *])

instance [Placed bounds first] :
    Placed bounds (Shape.expressionStatement first) :=
  .of_parts (by simp [Shape.parts, *])

instance {target : ForTarget Node} [Placed bounds target] [Placed bounds first]
    [Placed bounds second] : Placed bounds (Shape.forIn target first second) :=
  .of_parts (by simp [Shape.parts, *])

instance {isAwait : Bool} {target : ForTarget Node} [Placed bounds target]
    [Placed bounds first] [Placed bounds second] :
    Placed bounds (Shape.forOf isAwait target first second) :=
  .of_parts (by simp [Shape.parts, *])

instance {start : ForStart Node} [Placed bounds start] [Placed bounds maybe]
    [Placed bounds other] [Placed bounds first] :
    Placed bounds (Shape.forLoop start maybe other first) :=
  .of_parts (by simp [Shape.parts, *])

instance [Placed bounds nodes] : Placed bounds (Shape.forBody nodes) :=
  .of_parts (by simp [Shape.parts, *])

instance [Placed bounds first] [Placed bounds second] [Placed bounds maybe] :
    Placed bounds (Shape.ifElse first second maybe) :=
  .of_parts (by simp [Shape.parts, *])

instance {names : Option (ImportNames Node)} {source : String}
    [Placed bounds maybe] [Placed bounds names] :
    Placed bounds (Shape.importFrom maybe names source) :=
  .of_parts (by simp [Shape.parts, *])

instance {imported : ClauseName} [Placed bounds first] :
    Placed bounds (Shape.importItem imported first) :=
  .of_parts (by simp [Shape.parts, *])

instance {label : String} [Placed bounds first] :
    Placed bounds (Shape.labelled label first) :=
  .of_parts (by simp [Shape.parts, *])

instance [Placed bounds maybe] : Placed bounds (Shape.returnValue maybe) :=
  .of_parts (by simp [Shape.parts, *])

instance [Placed bounds first] [Placed bounds nodes] :
    Placed bounds (Shape.switch first nodes) :=
  .of_parts (by simp [Shape.parts, *])

instance [Placed bounds maybe] [Placed bounds nodes] :
    Placed bounds (Shape.switchCase maybe nodes) :=
  .of_parts (by simp [Shape.parts, *])

instance [Placed bounds first] : Placed bounds (Shape.throwValue first) :=
  .of_parts (by simp [Shape.parts, *])

instance [Placed bounds first] [Placed bounds maybe] [Placed bounds other] :
    Placed bounds (Shape.tryCatch first maybe other) :=
  .of_parts (by simp [Shape.parts, *])

instance [Placed bounds maybe] [Placed bounds nodes] :
    Placed bounds (Shape.catchClause maybe nodes) :=
  .of_parts (by simp [Shape.parts, *])

instance [Placed bounds first] [Placed bounds second] :
    Placed bounds (Shape.whileLoop first second) :=
  .of_parts (by simp [Shape.parts, *])

instance [Placed bounds first] [Placed bounds second] :
    Placed bounds (Shape.withObject first second) :=
  .of_parts (by simp [Shape.parts, *])

instance [Placed bounds first] [Placed bounds maybe] [Placed bounds nodes] :
    Placed bounds (Shape.classDeclaration first maybe nodes) :=
  .of_parts (by simp [Shape.parts, *])

instance [Placed bounds first] [Placed bounds second] :
    Placed bounds (Shape.funcDeclaration first second) :=
  .of_parts (by simp [Shape.parts, *])

instance {kind : VarKind} {declarators : List (Declarator Node)}
    [Placed bounds declarators] :
    Placed bounds (Shape.varDeclaration kind declarators) :=
  .of_parts (by simp [Shape.parts, *])

instance : Placed bounds (Shape.importMeta : Shape Node) :=
  .of_parts coversParts_nil

instance : Placed bounds (Shape.newTarget : Shape Node) :=
  .of_parts coversParts_nil

instance : Placed bounds (Shape.superRef : Shape Node) :=
  .of_parts coversParts_nil

instance : Placed bounds (Shape.thisRef : Shape Node) :=
  .of_parts coversParts_nil

instance {digits : String} : Placed bounds (Shape.bigint digits : Shape Node) :=
  .of_parts coversParts_nil

instance {value : Bool} : Placed bounds (Shape.boolean value : Shape Node) :=
  .of_parts coversParts_nil

instance : Placed bounds (Shape.null : Shape Node) :=
  .of_parts coversParts_nil

instance {value : Binary64} : Placed bounds (Shape.number value : Shape Node) :=
  .of_parts coversParts_nil

instance {text : String} : Placed bounds (Shape.regex text : Shape Node) :=
  .of_parts coversParts_nil

instance {value : String} : Placed bounds (Shape.string value : Shape Node) :=
  .of_parts coversParts_nil

instance {label : Option String} :
    Placed bounds (Shape.breakTo label : Shape Node) :=
  .of_parts coversParts_nil

instance {label : Option String} :
    Placed bounds (Shape.continueTo label : Shape Node) :=
  .of_parts coversParts_nil

instance : Placed bounds (Shape.debugger : Shape Node) :=
  .of_parts coversParts_nil

instance : Placed bounds (Shape.empty : Shape Node) :=
  .of_parts coversParts_nil

instance {asName : Option ClauseName} {source : String} :
    Placed bounds (Shape.exportAll asName source : Shape Node) :=
  .of_parts coversParts_nil

instance {exported asName : ClauseName} :
    Placed bounds (Shape.exportItem exported asName : Shape Node) :=
  .of_parts coversParts_nil

end Shapes

/-- A node without parts is placed where its range is. -/
theorem Placed.leaf {span : Span} (h : bounds.Covers span)
    {shape : Shape Node} (hparts : shape.parts = []) :
    Placed bounds (Node.mk span shape) :=
  ⟨.mk h.1 h.2 (hparts ▸ by rintro _ ⟨⟩)⟩

/-- The shape of a placed node lies within its range. -/
theorem Node.placed_shape {span : Span} {shape : Shape Node}
    (h : Placed bounds (Node.mk span shape)) :
    bounds.Covers span ∧
      Bounds.CoversParts ⟨bounds.text, span⟩ shape.parts :=
  ⟨⟨h.placed.isIn, h.placed.contains⟩, h.placed.parts⟩

theorem Node.placed_mk {span : Span} (h : bounds.Covers span)
    (shape : Shape Node) [hshape : Placed ⟨bounds.text, span⟩ shape] :
    Placed bounds (Node.mk span shape) := ⟨.mk h.1 h.2 hshape.placed⟩

theorem Placed.covers {node : Node} (h : Placed bounds node) :
    bounds.Covers node.span := ⟨h.placed.isIn, h.placed.contains⟩

theorem Placed.within {node : Node} (h : Placed bounds node) {span : Span}
    (hcontains : span.contains node.span = true) :
    Placed ⟨bounds.text, span⟩ node := ⟨h.placed.within hcontains⟩

/-- A node that has the range of its only part. -/
instance {func : Node} [h : Placed bounds func] :
    Placed bounds (Node.mk func.span (.arrow func)) := by
  have hinner := h.within (Span.contains_refl func.span)
  exact Node.placed_mk h.covers (.arrow func)

/-- Names and keys have no parts. -/
instance {name : String} : Placed bounds (Shape.ident name : Shape Node) :=
  .of_parts coversParts_nil

instance {name : String} :
    Placed bounds (Shape.identPattern name : Shape Node) :=
  .of_parts coversParts_nil

instance {name : String} :
    Placed bounds (Shape.declaredName name : Shape Node) :=
  .of_parts coversParts_nil

instance {text : String} {kind : TokenKind} :
    Placed bounds (Shape.literalKey text kind : Shape Node) :=
  .of_parts coversParts_nil

end Parts

end Bundler
