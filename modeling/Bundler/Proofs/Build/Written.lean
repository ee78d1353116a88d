import Bundler.Build.Names
import Mathlib.Logic.Function.Iterate

/-!
# What changes of names do

A suggestion changes nothing that is written yet.  A renaming changes what one
name or slot, or one module that is not bundled, is written as, and no
suggestion.
-/

namespace Bundler

namespace Identifier

/-- Underscores in front make a name longer. -/
theorem length_le_freeName (taken : List String) (name : String) :
    name.length ≤ (freeName taken name).length := by
  fun_induction freeName taken name with
  | case1 taken name _ ih =>
      have hlonger : ("_" ++ name).length = 1 + name.length := by
        rw [String.length_append]
        rfl
      omega
  | case2 => exact Nat.le_refl _

/-- A free name is not taken. -/
theorem freeName_notMem (taken : List String) (name : String) :
    freeName taken name ∉ taken := by
  fun_induction freeName taken name with
  | case1 taken name _ ih =>
      intro hmem
      have hlonger : ("_" ++ name).length = 1 + name.length := by
        rw [String.length_append]
        rfl
      have hlength := length_le_freeName (taken.erase name) ("_" ++ name)
      have hother : freeName (taken.erase name) ("_" ++ name) ≠ name := by
        intro heq
        rw [heq] at hlength
        omega
      exact ih ((List.mem_erase_of_ne hother).mpr hmem)
  | case2 _ _ hfree => exact hfree

/-- Putting underscores in front comes to an end: after no more of them than
there are taken names, and at the first name that is free. -/
theorem freeName_spec (taken : List String) (name : String) :
    ∃ count ≤ taken.length,
      freeName taken name = ("_" ++ ·)^[count] name ∧
        freeName taken name ∉ taken ∧
        ∀ fewer < count, ("_" ++ ·)^[fewer] name ∈ taken := by
  have hfree := freeName_notMem taken name
  fun_induction freeName taken name with
  | case1 taken name htaken ih =>
      obtain ⟨count, hcount, hname, _, hfewer⟩ :=
        ih (freeName_notMem _ _)
      have hlength := List.length_erase_of_mem htaken
      have hpositive := List.length_pos_of_mem htaken
      refine ⟨count + 1, by omega, hname, hfree, fun fewer hless => ?_⟩
      cases fewer with
      | zero => exact htaken
      | succ fewer =>
          exact List.mem_of_mem_erase (hfewer fewer (by omega))
  | case2 taken name hnew =>
      exact ⟨0, Nat.zero_le _, rfl, hnew, by simp⟩

end Identifier

namespace Names

variable {names : Names} {module other : Path} {specifier : String}

theorem ofModule_setModule (own : ModuleNames) :
    (names.setModule module own).ofModule other =
      if other = module then own else names.ofModule other := by
  rw [ofModule, setModule, ofModule]
  rw [NameMap.get?_insert]
  by_cases hpath : other = module
  · simp [hpath]
  · have htext : other.text ≠ module.text := fun heq =>
      hpath (by cases other; cases module; exact congrArg Path.mk heq)
    simp [hpath, htext]

theorem ofExternal_setExternal {asked : String} (own : ExternalNames) :
    (names.setExternal specifier own).ofExternal asked =
      if asked = specifier then own else names.ofExternal asked := by
  rw [ofExternal, setExternal, ofExternal]
  rw [NameMap.get?_insert]
  by_cases hasked : asked = specifier <;> simp [hasked]

section Suggestions

/-- Names that are written in the same way. -/
structure SameWritten (names later : Names) : Prop where
  written : ∀ path name, later.written path name = names.written path name
  writtenExternal : ∀ specifier,
    later.writtenExternal specifier = names.writtenExternal specifier

theorem SameWritten.refl (names : Names) : names.SameWritten names :=
  ⟨fun _ _ => rfl, fun _ => rfl⟩

theorem SameWritten.trans {first second third : Names}
    (hfirst : first.SameWritten second) (hsecond : second.SameWritten third) :
    first.SameWritten third where
  written path name :=
    (hsecond.written path name).trans (hfirst.written path name)
  writtenExternal specifier :=
    (hsecond.writtenExternal specifier).trans
      (hfirst.writtenExternal specifier)

theorem sameWritten_suggest (slot candidate : String) :
    names.SameWritten (names.suggest module slot candidate) where
  written path name := by
    rw [written, suggest, written]
    rw [ofModule_setModule]
    split
    · rename_i hpath
      rw [hpath]
    · rfl
  writtenExternal _ := rfl

theorem sameWritten_suggestExternal (slot candidate : String) :
    names.SameWritten (names.suggestExternal specifier slot candidate) where
  written _ _ := rfl
  writtenExternal asked := by
    rw [writtenExternal, suggestExternal, writtenExternal]
    rw [ofExternal_setExternal]
    split
    · rename_i hasked
      rw [hasked]
    · rfl

end Suggestions

section Renaming

variable {name replacement : String}

theorem written_rename {asked : String} :
    (names.rename module name replacement).written other asked =
      if other = module ∧ asked = name then replacement
      else names.written other asked := by
  rw [written, rename, written]
  rw [ofModule_setModule]
  by_cases hpath : other = module
  · rw [if_pos hpath, NameMap.get?_insert]
    by_cases hasked : asked = name <;> simp [hpath, hasked]
  · simp [hpath]

theorem writtenExternal_renameExternal {asked : String} :
    (names.renameExternal specifier replacement).writtenExternal asked =
      if asked = specifier then replacement
      else names.writtenExternal asked := by
  rw [writtenExternal, renameExternal, writtenExternal]
  rw [ofExternal_setExternal]
  by_cases hasked : asked = specifier <;> simp [hasked]

/-- Names that have the same suggestions. -/
structure SameSuggested (names later : Names) : Prop where
  suggested : ∀ path slot, later.suggested? path slot = names.suggested? path slot
  external : ∀ specifier, (later.ofExternal specifier).suggested =
    (names.ofExternal specifier).suggested

theorem sameSuggested_rename :
    names.SameSuggested (names.rename module name replacement) where
  suggested path slot := by
    rw [suggested?, rename, suggested?]
    rw [ofModule_setModule]
    split
    · rename_i hpath
      rw [hpath]
    · rfl
  external _ := rfl

theorem sameSuggested_renameExternal :
    names.SameSuggested (names.renameExternal specifier replacement) where
  suggested _ _ := rfl
  external asked := by
    rw [renameExternal]
    rw [ofExternal_setExternal]
    split
    · rename_i hasked
      rw [hasked]
    · rfl

end Renaming

end Names

end Bundler
