import Bundler.Graph.Link
import Bundler.Proofs.Analysis.Tables

/-!
# Loaders in use

The loaders that loading operations lead to, in any order and whether they
succeed or fail.  All of them keep, for each path asked for, what reading that
path gives, so a module found in one is the module of its own source and is
found again under its own path.
-/

namespace Bundler

namespace Loading

variable {α β : Type}

/-- The loader that an operation leaves behind, successful or not. -/
def leave (operation : Loading α) (loader : Loader) : Loader :=
  match operation loader with
  | .ok _ after | .error _ after => after

theorem leave_of_ok {operation : Loading α} {loader after : Loader}
    {value : α} (hrun : operation loader = .ok value after) :
    operation.leave loader = after := by
  rw [leave, hrun]

end Loading

namespace Loader

/-- The loaders that operations lead to from the start. -/
inductive Reachable (files : Files) (resolver : Resolver) : Loader → Prop
  | start : Reachable files resolver (.ofFiles files resolver)
  | load {loader : Loader} (path : Path) :
      Reachable files resolver loader →
      Reachable files resolver ((Loading.load path).leave loader)
  | loadGraph {loader : Loader} (path : Path) :
      Reachable files resolver loader →
      Reachable files resolver ((Loading.loadGraph path).leave loader)

/-- The passage from a loader to a later one, which has read further paths and
followed the imports of further modules. -/
inductive Grows (first : Loader) : Loader → Prop
  | refl : Grows first first
  | read {loader : Loader} (path : Path) :
      Grows first loader → loader.find? path = none →
      Grows first { loader with
        loaded := loader.loaded ++ [(path, loader.readModule path)] }
  | follow {loader : Loader} (path : Path) :
      Grows first loader →
      Grows first { loader with followed := path :: loader.followed }

theorem Grows.trans {first second third : Loader}
    (hfirst : first.Grows second) (hsecond : second.Grows third) :
    first.Grows third := by
  induction hsecond with
  | refl => exact hfirst
  | read path _ hnew ih => exact .read path ih hnew
  | follow path _ ih => exact .follow path ih

end Loader

namespace Loading

variable {α β : Type}

/-- An operation that loaders grow by. -/
def IsGrowth (operation : Loading α) : Prop :=
  ∀ loader : Loader, loader.Grows (operation.leave loader)

namespace IsGrowth

theorem pure (value : α) : IsGrowth (pure value : Loading α) :=
  fun _ => .refl

theorem throw (error : BundleError) : IsGrowth (throw error : Loading α) :=
  fun _ => .refl

theorem bind {first : Loading α} {next : α → Loading β}
    (hfirst : IsGrowth first) (hnext : ∀ value, IsGrowth (next value)) :
    IsGrowth (first >>= next) := by
  intro loader
  have hbetween := hfirst loader
  rw [leave] at hbetween ⊢
  cases hrun : first loader with
  | error error after =>
      simpa [Bind.bind, EStateM.bind, hrun] using hbetween
  | ok value after =>
      rw [hrun] at hbetween
      have hafter := hnext value after
      rw [leave] at hafter
      apply hbetween.trans
      simpa [Bind.bind, EStateM.bind, hrun] using hafter

theorem forM {step : β → Loading PUnit} (hstep : ∀ value, IsGrowth (step value))
    (values : List β) : IsGrowth (values.forM step) := by
  induction values with
  | nil => exact pure PUnit.unit
  | cons value values ih => exact (hstep value).bind fun _ => ih

theorem ofOutcome (outcome : Except BundleError Module) :
    IsGrowth (ofOutcome outcome) := by
  cases outcome with
  | ok module => exact pure module
  | error error => exact throw error

theorem get_bind {next : Loader → Loading α}
    (hnext : ∀ loader : Loader, loader.Grows ((next loader).leave loader)) :
    IsGrowth (get >>= next) :=
  fun loader => hnext loader

theorem load (path : Path) : IsGrowth (load path) := by
  apply get_bind
  intro loader
  cases hfound : loader.find? path with
  | some outcome => exact ofOutcome outcome loader
  | none =>
      have hread := Loader.Grows.read path .refl hfound
      exact hread.trans (ofOutcome (loader.readModule path) _)

theorem follow (steps : Nat) (module : Module) :
    IsGrowth (follow steps module) := by
  induction steps generalizing module with
  | zero => exact throw (.unsettled module.path)
  | succ steps ih =>
      apply get_bind
      intro loader
      split
      · exact .refl
      · have hmarked := Loader.Grows.follow module.path
          (Loader.Grows.refl : loader.Grows loader)
        refine hmarked.trans (forM (fun dependency => ?_) module.dependencies _)
        rcases dependency with ⟨_, path | specifier⟩
        · exact (load path).bind fun dependency => ih dependency
        · exact pure PUnit.unit

theorem loadGraph (path : Path) : IsGrowth (loadGraph path) := by
  refine (load path).bind fun module => get_bind fun loader => ?_
  exact ((follow (loader.capacity + 1) module).bind fun _ => pure module)
    loader

end IsGrowth

end Loading

namespace Loader

variable {files : Files} {resolver : Resolver} {loader later : Loader}
  {path : Path} {module : Module}

theorem Reachable.grows (hreachable : Reachable files resolver loader) :
    (ofFiles files resolver).Grows loader := by
  induction hreachable with
  | start => exact .refl
  | load path _ ih => exact ih.trans (Loading.IsGrowth.load path _)
  | loadGraph path _ ih => exact ih.trans (Loading.IsGrowth.loadGraph path _)

/-- A graph that was loaded from the start leaves a reachable loader. -/
theorem Reachable.of_loadGraph
    (hrun : Loading.loadGraph path (ofFiles files resolver) =
      .ok module loader) : Reachable files resolver loader := by
  rw [← Loading.leave_of_ok hrun]
  exact .loadGraph path .start

theorem module_eq_ok_iff :
    loader.module path = .ok module ↔ loader.find? path = some (.ok module) := by
  rw [Loader.module]
  split <;> simp_all

/-- What has been read is not read again. -/
theorem Grows.module_eq_ok (hgrows : loader.Grows later)
    (hmodule : loader.module path = .ok module) :
    later.module path = .ok module := by
  rw [module_eq_ok_iff] at hmodule ⊢
  induction hgrows with
  | refl => exact hmodule
  | read other _ _ ih =>
      rw [find?, Option.map_eq_some_iff] at ih ⊢
      obtain ⟨entry, hfind, houtcome⟩ := ih
      exact ⟨entry, by rw [List.find?_append, hfind]; rfl, houtcome⟩
  | follow _ _ ih => exact ih

end Loader

namespace Loading

variable {path : Path} {module : Module} {before after : Loader}

theorem ofOutcome_eq_ok {outcome : Except BundleError Module}
    (hrun : ofOutcome outcome before = .ok module after) :
    outcome = .ok module ∧ before = after := by
  cases outcome with
  | ok found =>
      obtain ⟨rfl, rfl⟩ := Outcome.pure_eq_ok_iff.mp hrun
      exact ⟨rfl, rfl⟩
  | error error => exact absurd hrun Outcome.throw_ne_ok

/-- A module that was loaded is found under the path it was asked for by. -/
theorem load_eq_ok (hrun : load path before = .ok module after) :
    after.module path = .ok module := by
  rw [Loader.module_eq_ok_iff]
  rw [load] at hrun
  obtain ⟨_, _, hget, hrun⟩ := Outcome.bind_eq_ok_iff.mp hrun
  obtain ⟨rfl, rfl⟩ := Outcome.get_eq_ok_iff.mp hget
  cases hfound : before.find? path with
  | some outcome =>
      rw [hfound] at hrun
      obtain ⟨rfl, rfl⟩ := ofOutcome_eq_ok hrun
      exact hfound
  | none =>
      simp only [hfound] at hrun
      obtain ⟨_, _, hset, hrun⟩ := Outcome.bind_eq_ok_iff.mp hrun
      obtain rfl := Outcome.set_eq_ok_iff.mp hset
      obtain ⟨houtcome, rfl⟩ := ofOutcome_eq_ok hrun
      have hnew : before.loaded.find? (·.1.same path) = none := by
        simpa [Loader.find?] using hfound
      rw [Loader.find?, List.find?_append, hnew]
      simp [Path.same, houtcome]

theorem loadGraph_eq_ok (hrun : loadGraph path before = .ok module after) :
    after.module path = .ok module := by
  rw [loadGraph] at hrun
  obtain ⟨found, loaded, hload, hrun⟩ := Outcome.bind_eq_ok_iff.mp hrun
  obtain ⟨_, _, hget, hrun⟩ := Outcome.bind_eq_ok_iff.mp hrun
  obtain ⟨rfl, rfl⟩ := Outcome.get_eq_ok_iff.mp hget
  obtain ⟨_, _, hfollow, hrun⟩ := Outcome.bind_eq_ok_iff.mp hrun
  obtain ⟨rfl, rfl⟩ := Outcome.pure_eq_ok_iff.mp hrun
  have hgrows := IsGrowth.follow (loaded.capacity + 1) found loaded
  rw [leave_of_ok hfollow] at hgrows
  exact hgrows.module_eq_ok (load_eq_ok hload)

end Loading

/-- A module made of a source has the analysis of the program that the source
is. -/
theorem Module.ofSource_eq_ok {resolver : Resolver} {path : Path}
    {source : String} {module : Module}
    (hmodule : ofSource resolver path source = .ok module) :
    module.path = path ∧ module.source = source ∧
      ∃ program, Program.parse source = .ok program ∧
        Analysis.ofProgram path source program = .ok module.toAnalysis := by
  simp only [ofSource, Except.bind_eq_ok_iff, pure, Except.pure,
    Except.ok.injEq] at hmodule
  obtain ⟨program, hparse, analysis, hanalysis, rfl⟩ := hmodule
  refine ⟨rfl, rfl, program, ?_, hanalysis⟩
  cases houtcome : Program.parse source with
  | error refused => simp [houtcome, Except.mapError] at hparse
  | ok found => simpa [houtcome, Except.mapError] using hparse

namespace Loader

variable {files : Files} {resolver : Resolver} {loader later : Loader}
  {path : Path} {module : Module}

/-- Every kept outcome is the outcome of reading its path. -/
def IsFaithful (loader : Loader) : Prop :=
  ∀ entry ∈ loader.loaded, entry.2 = loader.readModule entry.1

theorem Grows.isFaithful (hgrows : loader.Grows later)
    (hfaithful : loader.IsFaithful) : later.IsFaithful := by
  induction hgrows with
  | refl => exact hfaithful
  | read path _ _ ih =>
      intro entry hentry
      cases List.mem_append.mp hentry with
      | inl hold => exact ih entry hold
      | inr hnew =>
          rw [List.mem_singleton.mp hnew]
          rfl
  | follow _ _ ih => exact ih

theorem Reachable.isFaithful (hreachable : Reachable files resolver loader) :
    loader.IsFaithful := by
  apply hreachable.grows.isFaithful
  intro entry hentry
  simp [ofFiles] at hentry

/-- A module that a source leads to is known. -/
theorem module_of_target {dependency : Module} {source : String}
    (htarget : loader.target module source = .ok (.internal dependency)) :
    ∃ path, loader.module path = .ok dependency := by
  simp only [target] at htarget
  split at htarget
  · rename_i path _
    obtain ⟨found, hfound, hsame⟩ := Except.map_eq_ok_iff.mp htarget
    obtain rfl := Target.internal.inj hsame
    exact ⟨path, hfound⟩
  · simp at htarget

/-- A module read from a path is known by that path and is made of its
source. -/
theorem readModule_eq_ok (hread : loader.readModule path = .ok module) :
    module.path = path ∧
      Module.ofSource loader.resolver module.path module.source =
        .ok module := by
  rw [readModule] at hread
  split at hread
  · simp at hread
  · rename_i source _
    obtain ⟨hpath, rfl, _⟩ := Module.ofSource_eq_ok hread
    rw [hpath]
    exact ⟨rfl, hread⟩

namespace IsFaithful

theorem module_eq_ok (hfaithful : loader.IsFaithful)
    (hmodule : loader.module path = .ok module) :
    module.path.parts = path.parts ∧
      Module.ofSource loader.resolver module.path module.source =
        .ok module := by
  rw [module_eq_ok_iff, find?, Option.map_eq_some_iff] at hmodule
  obtain ⟨entry, hfind, houtcome⟩ := hmodule
  have hread : loader.readModule entry.1 = .ok module := by
    rw [← hfaithful entry (List.mem_of_find?_eq_some hfind), houtcome]
  have hsame : entry.1.same path = true := by
    simpa using List.find?_some hfind
  obtain ⟨hpath, hsource⟩ := readModule_eq_ok hread
  exact ⟨by simpa [hpath, Path.same] using hsame, hsource⟩

/-- A module is found again under its own path. -/
theorem module_path (hfaithful : loader.IsFaithful)
    (hmodule : loader.module path = .ok module) :
    loader.module module.path = .ok module := by
  have hparts := (hfaithful.module_eq_ok hmodule).1
  rw [module_eq_ok_iff, find?] at hmodule ⊢
  simpa only [Path.same, hparts] using hmodule

/-- A loaded module is known by a path that was asked for. -/
theorem path_mem_loaded (hfaithful : loader.IsFaithful)
    (hmodule : loader.module path = .ok module) :
    module.path ∈ loader.loaded.map (·.1) := by
  rw [module_eq_ok_iff, find?, Option.map_eq_some_iff] at hmodule
  obtain ⟨entry, hfind, houtcome⟩ := hmodule
  have hmem := List.mem_of_find?_eq_some hfind
  have hread : loader.readModule entry.1 = .ok module := by
    rw [← hfaithful entry hmem, houtcome]
  exact List.mem_map.mpr ⟨entry, hmem, (readModule_eq_ok hread).1.symm⟩

/-- A module has the analysis of the program that its source is. -/
theorem ofProgram_eq_ok (hfaithful : loader.IsFaithful)
    (hmodule : loader.module path = .ok module) :
    ∃ program, Program.parse module.source = .ok program ∧
      Analysis.ofProgram module.path module.source program =
        .ok module.toAnalysis := by
  obtain ⟨_, _, hprogram⟩ :=
    Module.ofSource_eq_ok (hfaithful.module_eq_ok hmodule).2
  exact hprogram

theorem hasTables (hfaithful : loader.IsFaithful)
    (hmodule : loader.module path = .ok module) :
    module.toAnalysis.HasTables := by
  obtain ⟨program, _, hanalysis⟩ := hfaithful.ofProgram_eq_ok hmodule
  obtain ⟨_, _, _, _, _, _, htables⟩ := Analysis.ofProgram_eq_ok hanalysis
  exact htables

end IsFaithful

end Loader

end Bundler
