import Bundler.Parser.Target
import Bundler.Proofs.Outcome
import Bundler.Proofs.Parser.Naming

/-!
# Names in targets of assignments

A target is first read as an expression.  The pattern that it means holds the
same names in the same places.
-/

namespace Bundler

namespace Node

variable {naming : Naming}

mutual

theorem fit_toPattern {node pattern : Node} (h : Fit naming node)
    (hrun : node.toPattern = .ok pattern) : Fit naming pattern := by
  rw [Node.toPattern.eq_def] at hrun
  split at hrun
  · rename_i span elements
    have helements : Fit naming elements := by
      simpa [Node.parts, Node.shape, Shape.parts] using h.fits.parts
    obtain ⟨⟨targets, rest⟩, htargets, hrun⟩ := Except.bind_eq_ok_iff.mp hrun
    cases hrun
    obtain ⟨_, _⟩ := fit_elementsToPattern helements htargets
    infer_instance
  · rename_i span members
    have hmembers : Fit naming members := by
      simpa [Node.parts, Node.shape, Shape.parts] using h.fits.parts
    obtain ⟨⟨properties, rest⟩, hproperties, hrun⟩ :=
      Except.bind_eq_ok_iff.mp hrun
    cases hrun
    obtain ⟨_, _⟩ := fit_membersToPattern hmembers hproperties
    infer_instance
  · cases hrun
    exact .of_name (h.fits.name rfl) rfl rfl
  · cases hrun
    exact h
  · cases hrun
    exact h
  · cases hrun
    exact h
  · cases hrun
termination_by 2 * sizeOf node

theorem fit_toDefaultedPattern {node target : Node} {initial : Option Node}
    (h : Fit naming node)
    (hrun : node.toDefaultedPattern = .ok (target, initial)) :
    Fit naming target ∧ Fit naming initial := by
  rw [Node.toDefaultedPattern.eq_def] at hrun
  split at hrun
  · rename_i span operator left right
    split at hrun
    · obtain ⟨hleft, hright⟩ : Fit naming left ∧ Fit naming right := by
        simpa [Node.parts, Node.shape, Shape.parts] using h.fits.parts
      obtain ⟨pattern, hpattern, hrun⟩ := Except.bind_eq_ok_iff.mp hrun
      cases hrun
      exact ⟨fit_toPattern hleft hpattern, inferInstance⟩
    · cases hrun
  · obtain ⟨pattern, hpattern, hrun⟩ := Except.bind_eq_ok_iff.mp hrun
    cases hrun
    exact ⟨fit_toPattern h hpattern, inferInstance⟩
termination_by 2 * sizeOf node + 1

theorem fit_elementsToPattern {span : Span}
    {elements : List (ArrayElement Node)}
    {targets : List (PatternElement Node)} {rest : Option Node}
    (h : Fit naming elements)
    (hrun : Node.elementsToPattern span elements = .ok (targets, rest)) :
    Fit naming targets ∧ Fit naming rest := by
  rw [Node.elementsToPattern.eq_def] at hrun
  split at hrun
  · cases hrun
    exact ⟨inferInstance, inferInstance⟩
  · rename_i others
    obtain ⟨⟨targets, rest⟩, htargets, hrun⟩ := Except.bind_eq_ok_iff.mp hrun
    cases hrun
    have hothers : Fit naming others := ⟨(List.forall_mem_cons.mp h.fits).2⟩
    obtain ⟨_, hrest⟩ := fit_elementsToPattern hothers htargets
    exact ⟨inferInstance, hrest⟩
  · rename_i value others
    obtain ⟨⟨target, initial⟩, htarget, hrun⟩ := Except.bind_eq_ok_iff.mp hrun
    obtain ⟨⟨targets, rest⟩, htargets, hrun⟩ := Except.bind_eq_ok_iff.mp hrun
    cases hrun
    have hothers : Fit naming others := ⟨(List.forall_mem_cons.mp h.fits).2⟩
    have hvalue : Fit naming value := by
      simpa [HasNames.Fits, ArrayElement.parts] using
        (List.forall_mem_cons.mp h.fits).1
    obtain ⟨_, _⟩ := fit_toDefaultedPattern hvalue htarget
    obtain ⟨_, hrest⟩ := fit_elementsToPattern hothers htargets
    exact ⟨inferInstance, hrest⟩
  · rename_i value others
    obtain ⟨rest, hrest, hrun⟩ := Except.bind_eq_ok_iff.mp hrun
    have hvalue : Fit naming value := by
      simpa [HasNames.Fits, ArrayElement.parts] using
        (List.forall_mem_cons.mp h.fits).1
    have hpattern := fit_toPattern hvalue hrest
    split at hrun
    · cases hrun
      exact ⟨inferInstance, inferInstance⟩
    · cases hrun
termination_by 2 * sizeOf elements

theorem fit_membersToPattern {members properties : List Node}
    {rest : Option Node} (h : Fit naming members)
    (hrun : Node.membersToPattern members = .ok (properties, rest)) :
    Fit naming properties ∧ Fit naming rest := by
  rw [Node.membersToPattern.eq_def] at hrun
  split at hrun
  · cases hrun
    exact ⟨inferInstance, inferInstance⟩
  · rename_i span key value others
    obtain ⟨⟨target, initial⟩, htarget, hrun⟩ := Except.bind_eq_ok_iff.mp hrun
    obtain ⟨⟨properties, rest⟩, hproperties, hrun⟩ :=
      Except.bind_eq_ok_iff.mp hrun
    cases hrun
    obtain ⟨hmember, hothers⟩ := List.forall_mem_cons.mp h.fits
    have hothers : Fit naming others := ⟨hothers⟩
    obtain ⟨_, hvalue⟩ : Fit naming key ∧ Fit naming value := by
      simpa [Node.parts, Node.shape, Shape.parts] using
        Naming.Fits.parts hmember
    obtain ⟨_, _⟩ := fit_toDefaultedPattern hvalue htarget
    obtain ⟨_, hrest⟩ := fit_membersToPattern hothers hproperties
    exact ⟨inferInstance, hrest⟩
  · rename_i span place name others
    obtain ⟨⟨properties, rest⟩, hproperties, hrun⟩ :=
      Except.bind_eq_ok_iff.mp hrun
    cases hrun
    obtain ⟨hmember, hothers⟩ := List.forall_mem_cons.mp h.fits
    have hothers : Fit naming others := ⟨hothers⟩
    have hallows : naming.Allows place name :=
      (hmember.parts _ List.mem_cons_self).name rfl
    have hkey : Fit naming (Node.mk place (.literalKey name .identifier)) :=
      .of_name hallows rfl rfl
    have hpattern : Fit naming (Node.mk place (.identPattern name)) :=
      .of_name hallows rfl rfl
    obtain ⟨_, hrest⟩ := fit_membersToPattern hothers hproperties
    exact ⟨inferInstance, hrest⟩
  · rename_i span value others
    obtain ⟨pattern, hpattern, hrun⟩ := Except.bind_eq_ok_iff.mp hrun
    obtain ⟨hmember, _⟩ := List.forall_mem_cons.mp h.fits
    have hvalue : Fit naming value := ⟨hmember.parts _ List.mem_cons_self⟩
    have hrest := fit_toPattern hvalue hpattern
    split at hrun
    · split at hrun
      · cases hrun
        exact ⟨inferInstance, inferInstance⟩
      · cases hrun
    · cases hrun
  · cases hrun
termination_by 2 * sizeOf members

end

theorem fit_toAssignmentTarget {node target : Node} {operator : Operator}
    (h : Fit naming node)
    (hrun : node.toAssignmentTarget operator = .ok target) :
    Fit naming target := by
  rw [toAssignmentTarget] at hrun
  split at hrun
  · exact fit_toPattern h hrun
  · split at hrun
    · exact fit_toPattern h hrun
    · cases hrun
  · split at hrun
    · exact fit_toPattern h hrun
    · cases hrun
  · cases hrun
    exact h
  · cases hrun
    exact h
  · cases hrun

end Node

end Bundler
