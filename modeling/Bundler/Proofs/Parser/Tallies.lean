import Bundler.Parser.Target
import Bundler.Proofs.Outcome
import Bundler.Proofs.Parser.Naming
import Mathlib.Algebra.GroupWithZero.Nat

/-!
# How often names stand at a place

A word is read as one name at most.  To see this, the names of a tree that stand at
one place are counted, and so are those of all values that parsers yield on the way
to a tree.  The count of a value is the sum of the counts of what it holds.  The
pattern that an expression means as a target of assignments holds no more names at a
place than the expression does.
-/

namespace Bundler

/-- Whether a node of some shape is a name that stands where the node does.  Keys of
properties name no variable. -/
def Shape.isName {α : Type} : Shape α → Bool
  | .ident _ | .identPattern _ | .declaredName _ => true
  | _ => false

namespace Node

/-- Counts a range if it is the place. -/
def tallyRange (place span : Span) : Nat := if span = place then 1 else 0

/-- Counts a range that has a text if it is the place. -/
def tallySpan (place span : Span) : Nat :=
  if span.isEmpty then 0 else tallyRange place span

/-- Counts a name that stands in a range.  Only a name that is read may be implied and
have no text, and then it does not count. -/
def tallyName {α : Type} (place span : Span) : Shape α → Nat
  | .ident _ | .identPattern _ => tallySpan place span
  | .declaredName _ => tallyRange place span
  | _ => 0

/-- How many names of a tree stand at a place. -/
def tally (place : Span) (node : Node) : Nat :=
  tallyName place node.span node.shape +
    (node.parts.attach.map fun part => part.1.2.tally place).sum
termination_by sizeOf node
decreasing_by exact Node.sizeOf_lt_of_mem_parts part.2

/-- How many names of some parts of a tree stand at a place. -/
def tallyParts (place : Span) (parts : List (Role × Node)) : Nat :=
  (parts.map (·.2.tally place)).sum

theorem tally_eq (place : Span) (node : Node) :
    node.tally place =
      tallyName place node.span node.shape + tallyParts place node.parts := by
  rw [tally, tallyParts]
  conv =>
    rhs
    rw [← List.attach_map_subtype_val node.parts, List.map_map]
  rfl

theorem tallyRange_le_one (place span : Span) : tallyRange place span ≤ 1 := by
  rw [tallyRange]
  split
  · exact Nat.le_refl 1
  · exact Nat.zero_le 1

theorem tallySpan_le (place span : Span) :
    tallySpan place span ≤ tallyRange place span := by
  rw [tallySpan]
  split
  · exact Nat.zero_le _
  · exact Nat.le_refl _

theorem tallyName_le {α : Type} (place span : Span) (shape : Shape α) :
    tallyName place span shape ≤ tallyRange place span := by
  cases shape
  case ident | identPattern => exact tallySpan_le place span
  case declaredName => exact Nat.le_refl _
  all_goals exact Nat.zero_le _

theorem tallyName_le_isName {α : Type} (place span : Span) (shape : Shape α) :
    tallyName place span shape ≤ if shape.isName then 1 else 0 := by
  have hname := tallyName_le place span shape
  have hrange := tallyRange_le_one place span
  cases shape
  case ident | identPattern | declaredName => exact Nat.le_trans hname hrange
  all_goals exact Nat.le_refl 0

end Node

open Node (tallyName tallySpan tallyParts)

/-! ### Values -/

/-- Types of values in which names may occur, and how many of the names stand at a
place. -/
class Tallied (α : Type) where
  tally : Span → α → Nat

open Tallied (tally)

/-- In values of most types there are no names. -/
instance (priority := low) untallied {α : Type} : Tallied α := ⟨fun _ _ => 0⟩

instance : Tallied Node := ⟨Node.tally⟩

/-- A shape that is a name counts at every place, since it is not known where it is
going to stand. -/
instance : Tallied (Shape Node) :=
  ⟨fun place shape =>
    (if shape.isName then 1 else 0) + tallyParts place shape.parts⟩

/-- A word that is read as a key counts although it is no name, for it becomes one
if the property turns out to be a shorthand. -/
def PropertyKey.tally (place : Span) : PropertyKey Node → Nat
  | .literal (.mk span (.literalKey _ kind)) =>
      if kind.mayName then tallySpan place span else 0
  | key => key.part.2.tally place

instance : Tallied (PropertyKey Node) := ⟨PropertyKey.tally⟩

instance : Tallied (ArrayElement Node) :=
  ⟨fun place element => tallyParts place element.parts⟩

instance : Tallied (PatternElement Node) :=
  ⟨fun place element => tallyParts place element.parts⟩

instance : Tallied (Declarator Node) :=
  ⟨fun place declarator => tallyParts place declarator.parts⟩

instance : Tallied (FuncBody Node) :=
  ⟨fun place body => tallyParts place body.parts⟩

instance : Tallied (ForTarget Node) :=
  ⟨fun place target => tallyParts place target.parts⟩

instance : Tallied (ForStart Node) :=
  ⟨fun place start => tallyParts place start.parts⟩

instance : Tallied (ImportNames Node) :=
  ⟨fun place names => tallyParts place names.parts⟩

section Containers

variable {α β : Type} [Tallied α] [Tallied β] {place : Span}

instance : Tallied (Option α) := ⟨fun place value => value.elim 0 (tally place)⟩

instance : Tallied (List α) :=
  ⟨fun place values => (values.map (tally place)).sum⟩

instance : Tallied (α × β) :=
  ⟨fun place pair => tally place pair.1 + tally place pair.2⟩

instance : Tallied (α ⊕ β) :=
  ⟨fun place => Sum.elim (tally place) (tally place)⟩

instance {ε : Type} : Tallied (Except ε α) :=
  ⟨fun place outcome =>
    match outcome with
    | .ok value => tally place value
    | .error _ => 0⟩

/-- Types of values without names. -/
class Untallied (α : Type) [Tallied α] : Prop where
  tally_eq_zero : ∀ (place : Span) (value : α), tally place value = 0

instance {α : Type} : @Untallied α untallied :=
  @Untallied.mk α untallied fun _ _ => rfl

instance [h : Untallied α] : Untallied (Option α) where
  tally_eq_zero place value := by
    cases value with
    | none => rfl
    | some value => exact h.tally_eq_zero place value

instance [h : Untallied α] : Untallied (List α) where
  tally_eq_zero place values := by
    induction values with
    | nil => rfl
    | cons value values ih =>
        change tally place value + tally place values = 0
        rw [h.tally_eq_zero, ih]

instance [h : Untallied α] [hother : Untallied β] : Untallied (α × β) where
  tally_eq_zero place pair := by
    change tally place pair.1 + tally place pair.2 = 0
    rw [h.tally_eq_zero, hother.tally_eq_zero]

theorem tally_untallied [h : Untallied α] (value : α) : tally place value = 0 :=
  h.tally_eq_zero place value

@[simp]
theorem tally_none : tally place (none : Option α) = 0 := rfl

@[simp]
theorem tally_some (value : α) : tally place (some value) = tally place value := rfl

@[simp]
theorem tally_nil : tally place ([] : List α) = 0 := rfl

@[simp]
theorem tally_cons (value : α) (values : List α) :
    tally place (value :: values) = tally place value + tally place values := rfl

@[simp]
theorem tally_reverse (values : List α) :
    tally place values.reverse = tally place values := by
  change (values.reverse.map (tally place)).sum = (values.map (tally place)).sum
  rw [List.map_reverse, List.sum_reverse]

@[simp]
theorem tally_pair (first : α) (second : β) :
    tally place (first, second) = tally place first + tally place second := rfl

theorem tally_fst_add_snd (pair : α × β) :
    tally place pair.1 + tally place pair.2 = tally place pair := rfl

@[simp]
theorem tally_map_fst [Untallied β] (pairs : List (α × β)) :
    tally place (pairs.map (·.1)) = tally place pairs := by
  induction pairs with
  | nil => rfl
  | cons pair others ih =>
      rw [List.map_cons, tally_cons, tally_cons, ih, ← tally_fst_add_snd pair,
        tally_untallied pair.2, Nat.add_zero]

@[simp]
theorem tally_inl (value : α) :
    tally place (.inl value : α ⊕ β) = tally place value := rfl

@[simp]
theorem tally_inr (value : β) :
    tally place (.inr value : α ⊕ β) = tally place value := rfl

@[simp]
theorem tally_ok {ε : Type} (value : α) :
    tally place (.ok value : Except ε α) = tally place value := rfl

@[simp]
theorem tally_error {ε : Type} (error : ε) :
    tally place (.error error : Except ε α) = 0 := rfl

end Containers

/-! ### Parts -/

section Parts

variable {place span : Span} {shape : Shape Node} {role : Role}
  {parts others : List (Role × Node)}

@[simp]
theorem tally_node : tally place (Node.mk span shape) =
    tallyName place span shape + tallyParts place shape.parts :=
  Node.tally_eq place _

theorem tally_shape : tally place shape =
    (if shape.isName then 1 else 0) + tallyParts place shape.parts := rfl

theorem tally_node_le (span : Span) (shape : Shape Node) :
    tally place (Node.mk span shape) ≤ tally place shape := by
  rw [tally_node, tally_shape]
  exact Nat.add_le_add_right (Node.tallyName_le_isName place span shape) _

@[simp]
theorem tallyParts_nil : tallyParts place [] = 0 := rfl

@[simp]
theorem tallyParts_cons (part : Role × Node) :
    tallyParts place (part :: parts) =
      tally place part.2 + tallyParts place parts := rfl

@[simp]
theorem tallyParts_append :
    tallyParts place (parts ++ others) =
      tallyParts place parts + tallyParts place others := by
  rw [tallyParts, List.map_append, List.sum_append]
  rfl

@[simp]
theorem tallyParts_reverse : tallyParts place parts.reverse = tallyParts place parts := by
  rw [tallyParts, List.map_reverse, List.sum_reverse]
  rfl

@[simp]
theorem tallyParts_map (nodes : List Node) :
    tallyParts place (nodes.map (role, ·)) = tally place nodes := by
  rw [tallyParts, List.map_map]
  rfl

@[simp]
theorem tally_toList (maybe : Option Node) :
    tally place maybe.toList = tally place maybe := by
  cases maybe <;> rfl

theorem tallyParts_flatMap {β : Type} [Tallied β] {values : List β}
    {partsOf : β → List (Role × Node)}
    (hparts : ∀ value, tallyParts place (partsOf value) = tally place value) :
    tallyParts place (values.flatMap partsOf) = tally place values := by
  induction values with
  | nil => rfl
  | cons value values ih =>
      rw [List.flatMap_cons, tallyParts_append, hparts, ih, tally_cons]

@[simp]
theorem tallyParts_elements (elements : List (ArrayElement Node)) :
    tallyParts place (elements.flatMap ArrayElement.parts) =
      tally place elements := tallyParts_flatMap fun _ => rfl

@[simp]
theorem tallyParts_patternElements (elements : List (PatternElement Node)) :
    tallyParts place (elements.flatMap PatternElement.parts) =
      tally place elements := tallyParts_flatMap fun _ => rfl

@[simp]
theorem tallyParts_declarators (declarators : List (Declarator Node)) :
    tallyParts place (declarators.flatMap Declarator.parts) =
      tally place declarators := tallyParts_flatMap fun _ => rfl

@[simp]
theorem tallyParts_names (names : Option (ImportNames Node)) :
    tallyParts place ((names.map ImportNames.parts).getD []) =
      tally place names := by
  cases names <;> rfl

theorem tally_element (element : ArrayElement Node) :
    tally place element = tallyParts place element.parts := rfl

theorem tally_patternElement (element : PatternElement Node) :
    tally place element = tallyParts place element.parts := rfl

theorem tally_declarator (declarator : Declarator Node) :
    tally place declarator = tallyParts place declarator.parts := rfl

theorem tally_body (body : FuncBody Node) :
    tally place body = tallyParts place body.parts := rfl

theorem tally_target (target : ForTarget Node) :
    tally place target = tallyParts place target.parts := rfl

theorem tally_start (start : ForStart Node) :
    tally place start = tallyParts place start.parts := rfl

theorem tally_names (names : ImportNames Node) :
    tally place names = tallyParts place names.parts := rfl

/-- In a property a key counts no more than on its own. -/
theorem tally_part_le (key : PropertyKey Node) :
    tally place key.part.2 ≤ tally place key := by
  cases key with
  | computed value => exact Nat.le_refl _
  | literal name =>
      obtain ⟨span, shape⟩ := name
      cases shape with
      | literalKey text kind =>
          rw [PropertyKey.part, tally_node]
          exact Nat.zero_le _
      | _ => exact Nat.le_refl _

end Parts

/-! ### Targets of assignments -/

variable {place : Span}

mutual

theorem tally_toPattern_le {node pattern : Node} (hrun : node.toPattern = .ok pattern) :
    tally place pattern ≤ tally place node := by
  rw [Node.toPattern.eq_def] at hrun
  split at hrun
  · obtain ⟨⟨targets, rest⟩, htargets, hrun⟩ := Except.bind_eq_ok_iff.mp hrun
    cases hrun
    simpa [Node.tallyName, Shape.parts] using tally_elementsToPattern_le htargets
  · obtain ⟨⟨properties, rest⟩, hproperties, hrun⟩ := Except.bind_eq_ok_iff.mp hrun
    cases hrun
    simpa [Node.tallyName, Shape.parts] using tally_membersToPattern_le hproperties
  · cases hrun
    simp [Node.tallyName, Shape.parts]
  · cases hrun
    exact Nat.le_refl _
  · cases hrun
    exact Nat.le_refl _
  · cases hrun
    exact Nat.le_refl _
  · cases hrun
termination_by 2 * sizeOf node

theorem tally_toDefaultedPattern_le {node target : Node} {initial : Option Node}
    (hrun : node.toDefaultedPattern = .ok (target, initial)) :
    tally place target + tally place initial ≤ tally place node := by
  rw [Node.toDefaultedPattern.eq_def] at hrun
  split at hrun
  · split at hrun
    · obtain ⟨pattern, hpattern, hrun⟩ := Except.bind_eq_ok_iff.mp hrun
      cases hrun
      simpa [Node.tallyName, Shape.parts] using tally_toPattern_le hpattern
    · cases hrun
  · obtain ⟨pattern, hpattern, hrun⟩ := Except.bind_eq_ok_iff.mp hrun
    cases hrun
    simpa using tally_toPattern_le hpattern
termination_by 2 * sizeOf node + 1

theorem tally_elementsToPattern_le {span : Span} {elements : List (ArrayElement Node)}
    {targets : List (PatternElement Node)} {rest : Option Node}
    (hrun : Node.elementsToPattern span elements = .ok (targets, rest)) :
    tally place targets + tally place rest ≤ tally place elements := by
  rw [Node.elementsToPattern.eq_def] at hrun
  split at hrun
  · cases hrun
    exact Nat.le_refl _
  · obtain ⟨⟨targets, rest⟩, htargets, hrun⟩ := Except.bind_eq_ok_iff.mp hrun
    cases hrun
    have hothers := tally_elementsToPattern_le htargets
    simpa [tally_element, tally_patternElement, ArrayElement.parts,
      PatternElement.parts] using hothers
  · obtain ⟨⟨target, initial⟩, htarget, hrun⟩ := Except.bind_eq_ok_iff.mp hrun
    obtain ⟨⟨targets, rest⟩, htargets, hrun⟩ := Except.bind_eq_ok_iff.mp hrun
    cases hrun
    have hvalue := tally_toDefaultedPattern_le htarget
    have hothers := tally_elementsToPattern_le htargets
    simp [tally_element, tally_patternElement, ArrayElement.parts,
      PatternElement.parts]
    omega
  · obtain ⟨rest, hrest, hrun⟩ := Except.bind_eq_ok_iff.mp hrun
    have hvalue := tally_toPattern_le hrest
    split at hrun
    · cases hrun
      simp [tally_element, ArrayElement.parts]
      omega
    · cases hrun
termination_by 2 * sizeOf elements

theorem tally_membersToPattern_le {members properties : List Node} {rest : Option Node}
    (hrun : Node.membersToPattern members = .ok (properties, rest)) :
    tally place properties + tally place rest ≤ tally place members := by
  rw [Node.membersToPattern.eq_def] at hrun
  split at hrun
  · cases hrun
    exact Nat.le_refl _
  · obtain ⟨⟨target, initial⟩, htarget, hrun⟩ := Except.bind_eq_ok_iff.mp hrun
    obtain ⟨⟨properties, rest⟩, hproperties, hrun⟩ := Except.bind_eq_ok_iff.mp hrun
    cases hrun
    have hvalue := tally_toDefaultedPattern_le htarget
    have hothers := tally_membersToPattern_le hproperties
    simp [Node.tallyName, Shape.parts]
    omega
  · obtain ⟨⟨properties, rest⟩, hproperties, hrun⟩ := Except.bind_eq_ok_iff.mp hrun
    cases hrun
    have hothers := tally_membersToPattern_le hproperties
    simp [Node.tallyName, Shape.parts, PropertyKey.part]
    omega
  · obtain ⟨pattern, hpattern, hrun⟩ := Except.bind_eq_ok_iff.mp hrun
    have hvalue := tally_toPattern_le hpattern
    split at hrun
    · split at hrun
      · cases hrun
        simpa [Node.tallyName, Shape.parts] using hvalue
      · cases hrun
    · cases hrun
  · cases hrun
termination_by 2 * sizeOf members

end

theorem tally_toAssignmentTarget_le {node target : Node} {operator : Operator}
    (hrun : node.toAssignmentTarget operator = .ok target) :
    tally place target ≤ tally place node := by
  rw [Node.toAssignmentTarget] at hrun
  split at hrun
  · exact tally_toPattern_le hrun
  · split at hrun
    · exact tally_toPattern_le hrun
    · cases hrun
  · split at hrun
    · exact tally_toPattern_le hrun
    · cases hrun
  · cases hrun
    exact Nat.le_refl _
  · cases hrun
    exact Nat.le_refl _
  · cases hrun

end Bundler
