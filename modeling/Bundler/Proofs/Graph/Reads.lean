import Bundler.Proofs.Graph.Reachable

/-!
# Reading once

A loader keeps the outcome for each path that it was asked for, and reads a path
only if it has no outcome for one that makes the same steps.  So the paths it has
read differ, and what was kept once is the answer from then on.
-/

namespace Bundler

/-- Files in memory are the same at all paths to one place. -/
theorem Files.read_ofList_of_normalize {files : List (Path × String)}
    {left right : Path} (hnormal : left.normalize = right.normalize) :
    (ofList files).read left = (ofList files).read right := by
  simp only [ofList, hnormal]

namespace Loader

/-- The loader that keeps the outcome of reading a path. -/
def keeping (loader : Loader) (path : Path)
    (outcome : Except BundleError Module) : Loader :=
  { loader with loaded := loader.loaded ++ [(path, outcome)] }

theorem find?_keeping (loader : Loader) (path asked : Path)
    (outcome : Except BundleError Module) :
    (loader.keeping path outcome).find? asked =
      (loader.find? asked).or
        (if path.same asked then some outcome else none) := by
  rw [find?, keeping, List.find?_append, find?]
  cases loader.loaded.find? (·.1.same asked) with
  | some entry => rfl
  | none =>
      cases hsame : path.same asked <;> simp [hsame]

/-- The path that the module at a path is known by. -/
def known? (loader : Loader) (path : Path) : Option Path :=
  (loader.loaded.find? (·.1.same path)).map (·.1)

theorem known?_of_same {loader : Loader} {left right : Path}
    (hsame : left.same right = true) :
    loader.known? left = loader.known? right := by
  have hparts : left.parts = right.parts := by simpa [Path.same] using hsame
  simp only [known?, Path.same, hparts]

theorem same_of_known? {loader : Loader} {path known : Path}
    (hknown : loader.known? path = some known) : known.same path = true := by
  rw [known?, Option.map_eq_some_iff] at hknown
  obtain ⟨entry, hfind, rfl⟩ := hknown
  simpa using List.find?_some hfind

theorem exists_of_known? {loader : Loader} {path known : Path}
    (hknown : loader.known? path = some known) :
    ∃ outcome, (known, outcome) ∈ loader.loaded := by
  rw [known?, Option.map_eq_some_iff] at hknown
  obtain ⟨entry, hfind, rfl⟩ := hknown
  exact ⟨entry.2, List.mem_of_find?_eq_some hfind⟩

theorem exists_known? {loader : Loader} {path : Path}
    {outcome : Except BundleError Module}
    (hfound : loader.find? path = some outcome) :
    ∃ known, loader.known? path = some known ∧
      (known, outcome) ∈ loader.loaded := by
  rw [find?, Option.map_eq_some_iff] at hfound
  obtain ⟨entry, hfind, rfl⟩ := hfound
  exact ⟨entry.1, by rw [known?, hfind]; rfl, List.mem_of_find?_eq_some hfind⟩

theorem find?_of_same {loader : Loader} {left right : Path}
    (hsame : left.same right = true) :
    loader.find? left = loader.find? right := by
  have hparts : left.parts = right.parts := by simpa [Path.same] using hsame
  simp only [find?, Path.same, hparts]

end Loader

namespace Loading

variable {loader after : Loader} {path : Path} {module : Module}
  {outcome : Except BundleError Module}

/-- What is known is not read again. -/
theorem load_of_find? (hfound : loader.find? path = some outcome) :
    load path loader = ofOutcome outcome loader := by
  rw [load, Outcome.get_bind, hfound]

/-- What is not known is read and kept, also if it is an error. -/
theorem load_of_new (hnew : loader.find? path = none) :
    load path loader = ofOutcome (loader.readModule path)
      (loader.keeping path (loader.readModule path)) := by
  rw [load, Outcome.get_bind, hnew]
  exact Outcome.bind_of_ok rfl

/-- A module is asked for that is known, or that can be read. -/
theorem load_cases (hrun : load path loader = .ok module after) :
    loader.find? path = some (.ok module) ∧ after = loader ∨
    loader.find? path = none ∧ loader.readModule path = .ok module ∧
      after = loader.keeping path (.ok module) := by
  cases hfound : loader.find? path with
  | some outcome =>
      rw [load_of_find? hfound] at hrun
      obtain ⟨rfl, rfl⟩ := ofOutcome_eq_ok hrun
      exact .inl ⟨rfl, rfl⟩
  | none =>
      rw [load_of_new hfound] at hrun
      obtain ⟨hread, rfl⟩ := ofOutcome_eq_ok hrun
      exact .inr ⟨rfl, hread, by rw [hread]⟩

/-- What following the imports of a module does at one of them. -/
theorem IsGrowth.followEntry (steps : Nat) (entry : String × Dependency) :
    IsGrowth (match entry.2 with
      | .external _ => Pure.pure PUnit.unit
      | .internal path => do Loading.follow steps (← Loading.load path)) := by
  cases entry.2 with
  | external specifier => exact .pure PUnit.unit
  | internal path =>
      exact (IsGrowth.load path).bind fun dependency =>
        IsGrowth.follow steps dependency

theorem leave_ofOutcome (outcome : Except BundleError Module) :
    (ofOutcome outcome).leave loader = loader := by
  cases outcome <;> rfl

end Loading

namespace Loader

variable {loader later : Loader} {path : Path}
  {outcome : Except BundleError Module}

/-- No two paths that were read make the same steps. -/
def HasReadOnce (loader : Loader) : Prop :=
  loader.loaded.Pairwise fun left right => left.1.same right.1 = false

theorem find?_eq_none_iff_known? :
    loader.find? path = none ↔ loader.known? path = none := by
  simp [find?, known?]

theorem find?_eq_none_iff :
    loader.find? path = none ↔
      ∀ entry ∈ loader.loaded, entry.1.same path = false := by
  simp [find?]

section Kept

variable (honce : loader.HasReadOnce)
  (hmem : (path, outcome) ∈ loader.loaded)
include honce hmem

/-- An outcome that is kept is the first one for its path. -/
theorem find?_loaded_of_mem :
    loader.loaded.find? (·.1.same path) = some (path, outcome) := by
  rw [HasReadOnce] at honce
  generalize loader.loaded = entries at honce hmem ⊢
  induction entries with
  | nil => exact absurd hmem List.not_mem_nil
  | cons entry entries ih =>
      obtain ⟨hdiffer, hothers⟩ := List.pairwise_cons.mp honce
      rcases List.mem_cons.mp hmem with rfl | hlater
      · simp [Path.same]
      · rw [List.find?_cons, hdiffer _ hlater]
        exact ih hothers hlater

/-- A path of which the outcome is kept has it as its answer. -/
theorem find?_of_mem : loader.find? path = some outcome := by
  rw [find?, find?_loaded_of_mem honce hmem, Option.map_some]

theorem known?_of_mem : loader.known? path = some path := by
  rw [known?, find?_loaded_of_mem honce hmem, Option.map_some]

end Kept

theorem HasReadOnce.nodup (honce : loader.HasReadOnce) :
    loader.loaded.Nodup := by
  refine honce.imp fun hdiffer heq => ?_
  rw [heq, Path.same] at hdiffer
  simp at hdiffer

/-- A module is known by its own path. -/
theorem IsFaithful.known? {module : Module} (hfaithful : loader.IsFaithful)
    (hmodule : loader.module path = .ok module) :
    loader.known? path = some module.path ∧
      (module.path, .ok module) ∈ loader.loaded := by
  obtain ⟨known, hknown, hmem⟩ := exists_known? (module_eq_ok_iff.mp hmodule)
  have hread := hfaithful _ hmem
  rw [(readModule_eq_ok hread.symm).1]
  exact ⟨hknown, hmem⟩

/-- The files have the text of a module at its own path. -/
theorem IsFaithful.read_path {module : Module} (hfaithful : loader.IsFaithful)
    (hmodule : loader.module path = .ok module) :
    loader.files.read module.path = .ok module.source := by
  have hread := hfaithful _ (hfaithful.known? hmodule).2
  rw [readModule] at hread
  split at hread
  · cases hread
  · rename_i source hsource
    rw [hsource, (Module.ofSource_eq_ok hread.symm).2.1]

namespace Grows

variable (hgrows : loader.Grows later)
include hgrows

theorem files_eq : later.files = loader.files := by
  induction hgrows with
  | refl => rfl
  | read _ _ _ ih => exact ih
  | follow _ _ ih => exact ih

theorem resolver_eq : later.resolver = loader.resolver := by
  induction hgrows with
  | refl => rfl
  | read _ _ _ ih => exact ih
  | follow _ _ ih => exact ih

/-- What was read stays, in the same order. -/
theorem loaded_prefix : loader.loaded <+: later.loaded := by
  induction hgrows with
  | refl => exact List.prefix_rfl
  | read _ _ _ ih => exact ih.trans (List.prefix_append _ _)
  | follow _ _ ih => exact ih

theorem find?_eq (hfound : loader.find? path = some outcome) :
    later.find? path = some outcome := by
  obtain ⟨added, hadded⟩ := hgrows.loaded_prefix
  rw [find?, Option.map_eq_some_iff] at hfound ⊢
  obtain ⟨entry, hfind, houtcome⟩ := hfound
  exact ⟨entry, by rw [← hadded, List.find?_append, hfind]; rfl, houtcome⟩

theorem hasReadOnce (honce : loader.HasReadOnce) : later.HasReadOnce := by
  induction hgrows with
  | refl => exact honce
  | read path _ hnew ih =>
      rw [find?_eq_none_iff] at hnew
      refine List.pairwise_append.mpr ⟨ih, List.pairwise_singleton _ _, ?_⟩
      intro entry hentry last hlast
      rw [List.mem_singleton.mp hlast]
      exact hnew entry hentry
  | follow _ _ ih => exact ih

end Grows

/-- The loader that requests for modules leave behind, whatever comes of them. -/
def afterRequests (loader : Loader) (paths : List Path) : Loader :=
  paths.foldl (fun loader path => (Loading.load path).leave loader) loader

theorem afterRequests_grows (loader : Loader) (paths : List Path) :
    loader.Grows (loader.afterRequests paths) := by
  induction paths generalizing loader with
  | nil => exact .refl
  | cons path paths ih =>
      exact (Loading.IsGrowth.load path loader).trans (ih _)

theorem Reachable.afterRequests {files : Files} {resolver : Resolver}
    (hreachable : Reachable files resolver loader) (paths : List Path) :
    Reachable files resolver (loader.afterRequests paths) := by
  induction paths generalizing loader with
  | nil => exact hreachable
  | cons path paths ih => exact ih (hreachable.load path)

theorem Reachable.hasReadOnce {files : Files} {resolver : Resolver}
    (hreachable : Reachable files resolver loader) : loader.HasReadOnce :=
  hreachable.grows.hasReadOnce List.Pairwise.nil

end Loader

end Bundler
