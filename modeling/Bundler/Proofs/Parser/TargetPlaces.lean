import Bundler.Parser.Target
import Bundler.Proofs.Parser.Located

/-!
# Places of targets of assignments

A target is first read as an expression.  The pattern that it means has the same
places, and a refusal is about one of them.
-/

namespace Bundler

variable {bounds : Bounds}

/-- What follows a success is judged within bounds of its own. -/
theorem Placed.bind {α β : Type} [HasPlaces α] [HasPlaces β] {span : Span}
    {outcome : Except SyntaxError α} {next : α → Except SyntaxError β}
    (h : Placed ⟨bounds.text, span⟩ outcome)
    (hnext : ∀ value, Placed ⟨bounds.text, span⟩ value →
      Placed bounds (next value)) : Placed bounds (outcome >>= next) := by
  cases outcome with
  | error error => exact ⟨h.placed⟩
  | ok value => exact hnext value ⟨h.placed⟩

instance {α : Type} [HasPlaces α] {value : α} [h : Placed bounds value] :
    Placed bounds (.ok value : Except SyntaxError α) := ⟨h.placed⟩

instance {α : Type} [HasPlaces α] {value : α} [h : Placed bounds value] :
    Placed bounds (pure value : Except SyntaxError α) := ⟨h.placed⟩

namespace Node

theorem placed_refuse {α : Type} [HasPlaces α] {span : Span}
    (h : span.IsIn bounds.text) :
    Placed bounds (refuse span : Except SyntaxError α) := ⟨h⟩

mutual

theorem placed_toPattern {bounds : Bounds} {node : Node}
    (h : Placed bounds node) : Placed bounds node.toPattern := by
  rw [Node.toPattern.eq_def]
  split
  · rename_i span elements
    obtain ⟨hspan, hshape⟩ := placed_shape h
    have helements : Placed ⟨bounds.text, span⟩ elements := by
      simpa [Shape.parts] using hshape
    refine .bind (placed_elementsToPattern helements hspan.1)
      fun (targets, rest) htargets => ?_
    obtain ⟨_, _⟩ := htargets.pair
    have hpattern := placed_mk hspan
      (Shape.arrayPattern targets rest)
    infer_instance
  · rename_i span members
    obtain ⟨hspan, hshape⟩ := placed_shape h
    have hmembers : Placed ⟨bounds.text, span⟩ members := by
      simpa [Shape.parts] using hshape
    refine .bind (placed_membersToPattern hmembers)
      fun (properties, rest) hproperties => ?_
    obtain ⟨_, _⟩ := hproperties.pair
    have hpattern := placed_mk hspan
      (Shape.objectPattern properties rest)
    infer_instance
  · rename_i span name
    have hpattern : Placed bounds (Node.mk span (.identPattern name)) :=
      .leaf (placed_shape h).1 rfl
    infer_instance
  · infer_instance
  · infer_instance
  · infer_instance
  · exact placed_refuse h.placed.isIn
termination_by 2 * sizeOf node

theorem placed_toDefaultedPattern {bounds : Bounds} {node : Node}
    (h : Placed bounds node) : Placed bounds node.toDefaultedPattern := by
  rw [Node.toDefaultedPattern.eq_def]
  split
  · rename_i span operator left right
    obtain ⟨hspan, hshape⟩ := placed_shape h
    split
    · obtain ⟨hleft, hright⟩ : Placed ⟨bounds.text, span⟩ left ∧
          Placed ⟨bounds.text, span⟩ right := by
        simpa [Shape.parts] using hshape
      refine .bind (placed_toPattern hleft) fun pattern hpattern => ?_
      have hpattern : Placed bounds pattern :=
        ⟨Located.mono hpattern.placed hspan.2⟩
      have hright : Placed bounds right := ⟨Located.mono hright.placed hspan.2⟩
      infer_instance
    · exact placed_refuse hspan.1
  · refine .bind (placed_toPattern h) fun pattern hpattern => ?_
    infer_instance
termination_by 2 * sizeOf node + 1

theorem placed_elementsToPattern {bounds : Bounds} {span : Span}
    {elements : List (ArrayElement Node)} (h : Placed bounds elements)
    (hspan : span.IsIn bounds.text) :
    Placed bounds (Node.elementsToPattern span elements) := by
  rw [Node.elementsToPattern.eq_def]
  split
  · infer_instance
  · rename_i others
    have hothers : Placed bounds others :=
      ⟨(List.forall_mem_cons.mp h.placed).2⟩
    refine .bind (placed_elementsToPattern hothers hspan)
      fun (targets, rest) htargets => ?_
    obtain ⟨_, _⟩ := htargets.pair
    dsimp only
    infer_instance
  · rename_i value others
    have hothers : Placed bounds others :=
      ⟨(List.forall_mem_cons.mp h.placed).2⟩
    have hvalue : Placed bounds value := by
      simpa [HasPlaces.IsPlaced, ArrayElement.parts] using
        (List.forall_mem_cons.mp h.placed).1
    refine .bind (placed_toDefaultedPattern hvalue)
      fun (target, initial) htarget => ?_
    obtain ⟨_, _⟩ := htarget.pair
    refine .bind (placed_elementsToPattern hothers hspan)
      fun (targets, rest) htargets => ?_
    obtain ⟨_, _⟩ := htargets.pair
    dsimp only
    infer_instance
  · rename_i value others
    have hvalue : Placed bounds value := by
      simpa [HasPlaces.IsPlaced, ArrayElement.parts] using
        (List.forall_mem_cons.mp h.placed).1
    refine .bind (placed_toPattern hvalue) fun rest hrest => ?_
    split
    · infer_instance
    · exact placed_refuse hspan
termination_by 2 * sizeOf elements

theorem placed_membersToPattern {bounds : Bounds} {members : List Node}
    (h : Placed bounds members) :
    Placed bounds (Node.membersToPattern members) := by
  rw [Node.membersToPattern.eq_def]
  split
  · infer_instance
  · rename_i span key value others
    obtain ⟨hmember, hothers⟩ := List.forall_mem_cons.mp h.placed
    obtain ⟨hspan, hshape⟩ := placed_shape (placed_iff.mpr hmember)
    obtain ⟨hkey, hvalue⟩ : Placed ⟨bounds.text, span⟩ key ∧
        Placed ⟨bounds.text, span⟩ value := by
      simpa [Shape.parts] using hshape
    refine .bind (placed_toDefaultedPattern hvalue)
      fun (target, initial) htarget => ?_
    obtain ⟨_, _⟩ := htarget.pair
    refine .bind (placed_membersToPattern ⟨hothers⟩)
      fun (properties, rest) hproperties => ?_
    obtain ⟨_, _⟩ := hproperties.pair
    have hproperty := placed_mk hspan
      (Shape.patternProperty key target (isShorthand key target) initial)
    dsimp only
    infer_instance
  · rename_i span place name others
    obtain ⟨hmember, hothers⟩ := List.forall_mem_cons.mp h.placed
    obtain ⟨hspan, hshape⟩ := placed_shape (placed_iff.mpr hmember)
    have hname := hshape _ List.mem_cons_self
    have hkey : Placed ⟨bounds.text, span⟩
        (Node.mk place (.literalKey name .identifier)) :=
      .leaf ⟨hname.isIn, hname.contains⟩ rfl
    have htarget : Placed ⟨bounds.text, span⟩
        (Node.mk place (.identPattern name)) :=
      .leaf ⟨hname.isIn, hname.contains⟩ rfl
    refine .bind (placed_membersToPattern ⟨hothers⟩)
      fun (properties, rest) hproperties => ?_
    obtain ⟨_, _⟩ := hproperties.pair
    have hproperty := placed_mk hspan
      (Shape.patternProperty
        (.literal (.mk place (.literalKey name .identifier)))
        (.mk place (.identPattern name)) true none)
    dsimp only
    infer_instance
  · rename_i span value others
    obtain ⟨hmember, hothers⟩ := List.forall_mem_cons.mp h.placed
    obtain ⟨hspan, hshape⟩ := placed_shape (placed_iff.mpr hmember)
    have hvalue : Placed bounds value :=
      ⟨(hshape _ List.mem_cons_self).mono hspan.2⟩
    refine .bind (placed_toPattern hvalue) fun pattern hpattern => ?_
    split
    · split
      · infer_instance
      · rename_i next rest
        exact placed_refuse
          (List.forall_mem_cons.mp hothers).1.isIn
    · exact placed_refuse hpattern.placed.isIn
  · exact placed_refuse (List.forall_mem_cons.mp h.placed).1.isIn
termination_by 2 * sizeOf members

end

theorem placed_toAssignmentTarget {node : Node} (h : Placed bounds node)
    (operator : Operator) :
    Placed bounds (node.toAssignmentTarget operator) := by
  rw [toAssignmentTarget]
  split
  · exact placed_toPattern h
  · split
    · exact placed_toPattern h
    · exact placed_refuse h.placed.isIn
  · split
    · exact placed_toPattern h
    · exact placed_refuse h.placed.isIn
  · infer_instance
  · infer_instance
  · exact placed_refuse h.placed.isIn

end Node

end Bundler
