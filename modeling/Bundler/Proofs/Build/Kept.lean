import Bundler.Proofs.Build.Postorder
import Bundler.Proofs.Build.Writes
import Bundler.Proofs.Shake.Least
import Mathlib.Data.List.Sort

/-!
# What a bundle keeps

All that is included lies with modules that the walk lists, so the statements of
a bundle are just the included ones, put in the order of the modules and of their
sources.
-/

namespace Bundler

namespace Bundle

variable {included : List StatementId} {modules : List Module}
  {module : Module}

/-- The numbers of the included statements of a module ascend. -/
theorem keptIn_ascending (hnodup : included.Nodup) (module : Module) :
    (keptIn included module).Pairwise (· < ·) := by
  have hnumbers : ((included.filter (·.1 = module.path)).map (·.2)).Nodup := by
    apply (hnodup.filter _).map_on
    intro left hleft right hright hsame
    rw [List.mem_filter, decide_eq_true_eq] at hleft hright
    exact Prod.ext (hleft.2.trans hright.2.symm) hsame
  have hsorted : (keptIn included module).SortedLE :=
    List.sortedLE_mergeSort (α := Nat)
  have hdistinct : (keptIn included module).Nodup :=
    List.nodup_mergeSort.mpr hnumbers
  exact (hsorted.sortedLT_of_nodup hdistinct).pairwise

/-- Within a module, statements are in the order of the source. -/
theorem pairwise_inOrder (hnodup : included.Nodup)
    (honce : (modules.map (·.path)).Nodup) :
    (inOrder modules included).Pairwise
      fun first second => first.1 = second.1 → first.2 < second.2 := by
  rw [inOrder, List.pairwise_flatMap]
  constructor
  · intro module _
    rw [List.pairwise_map]
    refine (keptIn_ascending hnodup module).imp ?_
    exact fun hless _ => hless
  · refine (List.pairwise_map.mp honce).imp ?_
    intro left right hpath first hfirst second hsecond hsame
    obtain ⟨_, _, rfl⟩ := List.mem_map.mp hfirst
    obtain ⟨_, _, rfl⟩ := List.mem_map.mp hsecond
    exact absurd hsame hpath

theorem nodup_inOrder (hnodup : included.Nodup)
    (honce : (modules.map (·.path)).Nodup) :
    (inOrder modules included).Nodup := by
  refine (pairwise_inOrder hnodup honce).imp ?_
  rintro first _ hless rfl
  exact Nat.lt_irrefl _ (hless rfl)

/-- A module keeps the same statements in the order of a bundle. -/
theorem keptIn_inOrder (hnodup : included.Nodup)
    (honce : (modules.map (·.path)).Nodup) (hmodule : module ∈ modules) :
    keptIn (inOrder modules included) module = keptIn included module := by
  apply List.Pairwise.eq_of_mem_iff
    (keptIn_ascending (nodup_inOrder hnodup honce) module)
    (keptIn_ascending hnodup module)
  intro id
  rw [mem_keptIn, mem_keptIn, mem_inOrder hmodule]

section Assembled

variable {bundle : Bundle} {entry : Module} {walk : ModuleWalk}
  {shaker : Shaker} (hfaithful : bundle.loader.IsFaithful)
  (hassembled : bundle.IsAssembled entry walk shaker)
include hfaithful hassembled

/-- The modules of a bundle are those that its entry module reaches, in their
order. -/
theorem IsAssembled.isPostorder :
    bundle.loader.IsPostorder entry bundle.modules := by
  rw [hassembled.modules]
  exact (ModuleWalk.ofEntry_isPostorder hfaithful hassembled.loaded
    hassembled.walked).1

/-- What a module of a bundle imports from outside is listed. -/
theorem IsAssembled.mem_externals (hmodule : module ∈ bundle.modules)
    {source specifier : String}
    (hexternal : (source, .external specifier) ∈ module.dependencies) :
    specifier ∈ bundle.externals := by
  rw [hassembled.modules] at hmodule
  rw [hassembled.externals]
  exact (ModuleWalk.ofEntry_isPostorder hfaithful hassembled.loaded
    hassembled.walked).2 module hmodule source specifier hexternal

/-- What shaking has met lies with a module of the bundle. -/
theorem IsAssembled.module_of_met {need : Need} (hmet : shaker.Met need) :
    ∃ module ∈ bundle.modules, module.path = need.module := by
  have hneeded := (hassembled.met_iff_needed hfaithful need).mp hmet
  obtain ⟨module, hreaches, hpath⟩ :=
    hneeded.isWithin hfaithful hassembled.loaded
  exact ⟨module, ((hassembled.isPostorder hfaithful).reached module).mpr
    hreaches, hpath⟩

theorem IsAssembled.isSound : shaker.IsSound bundle.loader :=
  (Shaking.shake_does hfaithful hassembled.loaded hassembled.shaken).1

/-- An included statement is one of a module of the bundle. -/
theorem IsAssembled.module_of_included {statement : StatementId}
    (hincluded : statement ∈ shaker.included) :
    ∃ module ∈ bundle.modules, module.path = statement.1 ∧
      statement.2 < module.statements.length := by
  have hstarted :=
    (hassembled.isSound hfaithful).started statement hincluded
  have hmet : shaker.Met (.statement statement.1 statement.2) := hstarted
  obtain ⟨module, hmodule, hpath⟩ := hassembled.module_of_met hfaithful hmet
  refine ⟨module, hmodule, hpath, ?_⟩
  have hexists : Shaking.Exists bundle.loader
      (.statement statement.1 statement.2) := by
    have hneeded := (hassembled.met_iff_needed hfaithful _).mp hmet
    exact hneeded.exists hfaithful hassembled.loaded
  have hloaded := hassembled.module_loaded hfaithful hmodule
  rw [hpath] at hloaded
  exact (hexists.of_statement hloaded).2

/-- Nothing included is lost, and nothing is kept that is not included. -/
theorem IsAssembled.statements_perm :
    bundle.statements.Perm shaker.included := by
  have honce := (hassembled.isPostorder hfaithful).once
  have hnodup := (hassembled.isSound hfaithful).nodup
  rw [hassembled.statements]
  rw [hassembled.modules] at honce
  rw [List.perm_ext_iff_of_nodup (nodup_inOrder hnodup honce) hnodup]
  intro statement
  constructor
  · intro hkept
    simp only [inOrder, List.mem_flatMap, List.mem_map] at hkept
    obtain ⟨module, _, id, hid, rfl⟩ := hkept
    exact mem_keptIn.mp hid
  · intro hincluded
    obtain ⟨module, hmodule, hpath, _⟩ :=
      hassembled.module_of_included hfaithful hincluded
    rw [hassembled.modules] at hmodule
    obtain ⟨path, id⟩ := statement
    obtain rfl : module.path = path := hpath
    exact (mem_inOrder hmodule).mpr hincluded

end Assembled

end Bundle

end Bundler
