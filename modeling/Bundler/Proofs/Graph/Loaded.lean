import Bundler.Proofs.Graph.Imports

/-!
# Graphs that are loaded

Loading a graph follows the imports of each module once, and a module counts as
followed before its imports are.  When loading from the start succeeds, no
module is left half done, so all imports of whatever the entry module reaches
are loaded.
-/

namespace Bundler

namespace Loader

variable {loader first second third before after : Loader}
  {left right path : Path} {module dependency : Module}

/-- Paths that make the same steps lead to the same module. -/
theorem module_of_same (hsame : left.same right = true)
    (hmodule : loader.module left = .ok module) :
    loader.module right = .ok module := by
  have hparts : left.parts = right.parts := by simpa [Path.same] using hsame
  rw [module_eq_ok_iff] at hmodule ⊢
  rw [← hmodule]
  simp only [find?, Path.same, hparts]

/-- The imports of the module at a path have been followed, or are being
followed. -/
def IsFollowed (loader : Loader) (path : Path) : Prop :=
  ∃ marked ∈ loader.followed, marked.same path = true

/-- All that a module imports is loaded and followed. -/
def HasFollowed (loader : Loader) (module : Module) : Prop :=
  ∀ entry ∈ module.dependencies, ∀ path, entry.2 = .internal path →
    ∃ dependency, loader.module path = .ok dependency ∧
      loader.IsFollowed dependency.path

theorem Grows.isFollowed (hgrows : first.Grows second)
    (hfollowed : first.IsFollowed path) : second.IsFollowed path := by
  induction hgrows with
  | refl => exact hfollowed
  | read _ _ _ ih => exact ih
  | follow other _ ih =>
      obtain ⟨marked, hmarked, hsame⟩ := ih
      exact ⟨marked, List.mem_cons_of_mem other hmarked, hsame⟩

theorem Grows.hasFollowed (hgrows : first.Grows second)
    (hdone : first.HasFollowed module) : second.HasFollowed module := by
  intro entry hentry path hpath
  obtain ⟨dependency, hfound, hfollowed⟩ := hdone entry hentry path hpath
  exact ⟨dependency, hgrows.module_eq_ok hfound, hgrows.isFollowed hfollowed⟩

/-- The passage from a loader to a later one that has finished what it has
begun. -/
structure Completes (before after : Loader) : Prop where
  grows : before.Grows after
  done : ∀ {path : Path}, after.IsFollowed path → before.IsFollowed path ∨
    ∃ module, after.module path = .ok module ∧ after.HasFollowed module

namespace Completes

theorem refl (loader : Loader) : Completes loader loader :=
  ⟨.refl, .inl⟩

theorem trans (hfirst : Completes first second)
    (hsecond : Completes second third) : Completes first third where
  grows := hfirst.grows.trans hsecond.grows
  done hfollowed := by
    cases hsecond.done hfollowed with
    | inl hbefore =>
        apply (hfirst.done hbefore).imp_right
        rintro ⟨module, hmodule, hdone⟩
        exact ⟨module, hsecond.grows.module_eq_ok hmodule,
          hsecond.grows.hasFollowed hdone⟩
    | inr hnew => exact .inr hnew

theorem of_followed (hgrows : before.Grows after)
    (hsame : after.followed = before.followed) : Completes before after where
  grows := hgrows
  done hfollowed := by
    rw [IsFollowed, hsame] at hfollowed
    exact .inl hfollowed

/-- A module counts as followed before its imports are. -/
theorem of_marked (hmodule : before.module module.path = .ok module)
    (hcompletes : Completes
      { before with followed := module.path :: before.followed } after)
    (hdone : after.HasFollowed module) : Completes before after where
  grows := (Grows.follow module.path .refl).trans hcompletes.grows
  done hfollowed := by
    cases hcompletes.done hfollowed with
    | inl hmarked =>
        obtain ⟨marked, hmem, hsame⟩ := hmarked
        rcases List.mem_cons.mp hmem with rfl | hold
        · have hloaded : after.module module.path = .ok module :=
            hcompletes.grows.module_eq_ok hmodule
          exact .inr ⟨module, module_of_same hsame hloaded, hdone⟩
        · exact .inl ⟨marked, hold, hsame⟩
    | inr hnew => exact .inr hnew

end Completes

/-- Each module that was followed has all that it imports loaded and
followed. -/
def Settled (loader : Loader) : Prop :=
  ∀ path, loader.IsFollowed path →
    ∃ module, loader.module path = .ok module ∧ loader.HasFollowed module

theorem settled_ofFiles (files : Files) (resolver : Resolver) :
    (ofFiles files resolver).Settled := by
  rintro path ⟨marked, hmarked, -⟩
  exact absurd hmarked List.not_mem_nil

theorem Completes.settled (hcompletes : before.Completes after)
    (hsettled : before.Settled) : after.Settled := by
  intro path hfollowed
  rcases hcompletes.done hfollowed with hbefore | hnew
  · obtain ⟨module, hmodule, hdone⟩ := hsettled path hbefore
    exact ⟨module, hcompletes.grows.module_eq_ok hmodule,
      hcompletes.grows.hasFollowed hdone⟩
  · exact hnew

/-- One of the imports of a module leads to another one, once it is loaded. -/
def WouldImport (loader : Loader) (module dependency : Module) : Prop :=
  ∃ source path, (source, .internal path) ∈ module.dependencies ∧
    ∀ found, loader.module path = .ok found → dependency = found

theorem Imports.wouldImport
    (himports : loader.Imports module dependency) :
    loader.WouldImport module dependency := by
  obtain ⟨source, path, hmem, hfound⟩ := himports
  refine ⟨source, path, hmem, fun other hother => ?_⟩
  rw [hfound] at hother
  exact Except.ok.inj hother

section Followed

variable (hmodule : loader.module module.path = .ok module)
  (hfollowed : loader.IsFollowed module.path)
include hmodule hfollowed

theorem Settled.hasFollowed (hsettled : loader.Settled) :
    loader.HasFollowed module := by
  obtain ⟨found, hfound, hdone⟩ := hsettled _ hfollowed
  rw [hmodule] at hfound
  exact Except.ok.inj hfound ▸ hdone

theorem Completes.hasFollowed (hcompletes : before.Completes loader)
    (hnew : ¬ before.IsFollowed module.path) : loader.HasFollowed module := by
  obtain ⟨found, hfound, hdone⟩ :=
    (hcompletes.done hfollowed).resolve_left hnew
  rw [hmodule] at hfound
  exact Except.ok.inj hfound ▸ hdone

/-- Along a chain of imports all modules are followed, if each one that has a
next one has all its imports followed. -/
theorem isFollowed_of_chain {Step : Module → Module → Prop}
    (hfaithful : loader.IsFaithful)
    (himports : ∀ {first second}, Step first second →
      loader.WouldImport first second)
    (hdone : ∀ {first second}, Step first second →
      loader.module first.path = .ok first → loader.IsFollowed first.path →
        loader.HasFollowed first)
    {other : Module} (hchain : Relation.ReflTransGen Step module other) :
    loader.module other.path = .ok other ∧ loader.IsFollowed other.path := by
  induction hchain with
  | refl => exact ⟨hmodule, hfollowed⟩
  | tail _ hstep ih =>
      obtain ⟨source, path, hmem, hsame⟩ := himports hstep
      obtain ⟨found, hfound, hmarked⟩ :=
        hdone hstep ih.1 ih.2 _ hmem path rfl
      obtain rfl := hsame found hfound
      exact ⟨hfaithful.module_path hfound, hmarked⟩

end Followed

/-- Whatever a module reaches has all that it imports loaded. -/
def IsComplete (loader : Loader) (entry : Module) : Prop :=
  ∀ module, loader.Reaches entry module → ∀ source path,
    (source, .internal path) ∈ module.dependencies →
    ∃ dependency, loader.module path = .ok dependency

end Loader

namespace Loading

variable {before after : Loader} {path : Path} {module : Module}

theorem load_completes (hrun : load path before = .ok module after) :
    before.Completes after := by
  have hgrows := IsGrowth.load path before
  rw [leave_of_ok hrun] at hgrows
  refine .of_followed hgrows ?_
  rw [load] at hrun
  obtain ⟨_, _, hget, hrun⟩ := Outcome.bind_eq_ok_iff.mp hrun
  obtain ⟨rfl, rfl⟩ := Outcome.get_eq_ok_iff.mp hget
  cases hfound : before.find? path with
  | some outcome =>
      rw [hfound] at hrun
      rw [(ofOutcome_eq_ok hrun).2]
  | none =>
      simp only [hfound] at hrun
      obtain ⟨_, _, hset, hrun⟩ := Outcome.bind_eq_ok_iff.mp hrun
      obtain rfl := Outcome.set_eq_ok_iff.mp hset
      rw [← (ofOutcome_eq_ok hrun).2]

/-- Following the imports of a module leaves none of them half done. -/
theorem follow_completes (steps : Nat) (hfaithful : before.IsFaithful)
    (hmodule : before.module module.path = .ok module) {result : Unit}
    (hrun : follow steps module before = .ok result after) :
    before.Completes after ∧ after.IsFollowed module.path := by
  induction steps generalizing module before after result with
  | zero => exact absurd hrun Outcome.throw_ne_ok
  | succ steps ih =>
      rw [follow] at hrun
      obtain ⟨_, _, hget, hrun⟩ := Outcome.bind_eq_ok_iff.mp hrun
      obtain ⟨rfl, rfl⟩ := Outcome.get_eq_ok_iff.mp hget
      split at hrun
      · rename_i hmarked
        obtain ⟨_, rfl⟩ := Outcome.pure_eq_ok_iff.mp hrun
        exact ⟨.refl before, by simpa [Loader.IsFollowed] using hmarked⟩
      · obtain ⟨_, marked, hset, hrun⟩ := Outcome.bind_eq_ok_iff.mp hrun
        obtain rfl := Outcome.set_eq_ok_iff.mp hset
        have hfaithfulMarked : Loader.IsFaithful
            { before with followed := module.path :: before.followed } :=
          (Loader.Grows.follow module.path .refl).isFaithful hfaithful
        obtain ⟨_, hcompletes, hdone⟩ := Outcome.forM_spec Loader.IsFaithful
          Loader.Completes
          (fun (entry : String × Dependency) loader => ∀ path,
            entry.2 = .internal path → ∃ dependency,
              loader.module path = .ok dependency ∧
                loader.IsFollowed dependency.path)
          .refl .trans
          (fun hpassage hdone path hpath => by
            obtain ⟨dependency, hfound, hfollowed⟩ := hdone path hpath
            exact ⟨dependency, hpassage.grows.module_eq_ok hfound,
              hpassage.grows.isFollowed hfollowed⟩)
          (fun entry _ {first last result} hfirst hstep => by
            obtain ⟨source, dependency⟩ := entry
            cases dependency with
            | external specifier =>
                obtain ⟨_, rfl⟩ := Outcome.pure_eq_ok_iff.mp hstep
                exact ⟨hfirst, .refl first, fun _ hpath => by cases hpath⟩
            | internal path =>
                obtain ⟨dependency, loaded, hload, hstep⟩ :=
                  Outcome.bind_eq_ok_iff.mp hstep
                have hloads := load_completes hload
                have hfound := load_eq_ok hload
                have hloaded := hloads.grows.isFaithful hfirst
                obtain ⟨hfollows, hfollowed⟩ :=
                  ih hloaded (hloaded.module_path hfound) hstep
                refine ⟨hfollows.grows.isFaithful hloaded,
                  hloads.trans hfollows, ?_⟩
                rintro _ ⟨⟩
                exact ⟨dependency, hfollows.grows.module_eq_ok hfound,
                  hfollowed⟩)
          hfaithfulMarked hrun
        refine ⟨hcompletes.of_marked hmodule hdone,
          hcompletes.grows.isFollowed ?_⟩
        exact ⟨module.path, List.mem_cons_self, by simp [Path.same]⟩

/-- A graph that was loaded has its entry module followed, and nothing is left
half done. -/
theorem loadGraph_completes (hfaithful : before.IsFaithful)
    (hrun : loadGraph path before = .ok module after) :
    before.Completes after ∧ after.IsFollowed module.path := by
  rw [loadGraph] at hrun
  obtain ⟨found, loaded, hload, hrun⟩ := Outcome.bind_eq_ok_iff.mp hrun
  obtain ⟨_, _, hget, hrun⟩ := Outcome.bind_eq_ok_iff.mp hrun
  obtain ⟨rfl, rfl⟩ := Outcome.get_eq_ok_iff.mp hget
  obtain ⟨_, final, hfollow, hrun⟩ := Outcome.bind_eq_ok_iff.mp hrun
  obtain ⟨rfl, rfl⟩ := Outcome.pure_eq_ok_iff.mp hrun
  have hloads := load_completes hload
  have hloaded := hloads.grows.isFaithful hfaithful
  obtain ⟨hcompletes, hfollowed⟩ := follow_completes _ hloaded
    (hloaded.module_path (load_eq_ok hload)) hfollow
  exact ⟨hloads.trans hcompletes, hfollowed⟩

/-- A graph that was loaded from the start is complete. -/
theorem loadGraph_isComplete {files : Files} {resolver : Resolver}
    {path : Path} {entry : Module} {loader : Loader}
    (hrun : loadGraph path (.ofFiles files resolver) = .ok entry loader) :
    loader.module entry.path = .ok entry ∧ loader.IsComplete entry := by
  have hstart : (Loader.ofFiles files resolver).IsFaithful :=
    Loader.Reachable.start.isFaithful
  obtain ⟨hcompletes, hfollowed⟩ := loadGraph_completes hstart hrun
  have hfaithful := hcompletes.grows.isFaithful hstart
  have hsettled := hcompletes.settled (Loader.settled_ofFiles files resolver)
  have hentry := hfaithful.module_path (loadGraph_eq_ok hrun)
  refine ⟨hentry, fun module hreaches source path hmem => ?_⟩
  obtain ⟨hmodule, hmarked⟩ := Loader.isFollowed_of_chain hentry hfollowed
    hfaithful (·.wouldImport)
    (fun _ hfirst => hsettled.hasFollowed hfirst) hreaches
  obtain ⟨dependency, hfound, -⟩ :=
    hsettled.hasFollowed hmodule hmarked _ hmem path rfl
  exact ⟨dependency, hfound⟩

end Loading

end Bundler
