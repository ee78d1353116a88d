import Bundler.Proofs.Graph.Loaded
import Bundler.Proofs.Graph.Places

/-!
# What loading a graph tells

A module counts as followed before its imports are, also if one of them turns
out not to load.  So loading a graph fails just if something cannot be loaded
that is reached through modules which were not followed before, and as long as
nothing has failed it tells whether everything can be loaded that is reached.
-/

namespace Bundler

namespace Loader

variable {first second before after loader : Loader} {path : Path}
  {module dependency : Module}

theorem isFollowed_iff :
    loader.IsFollowed path ↔ loader.followed.any (·.same path) = true := by
  simp [IsFollowed]

/-- The places of which the modules have not been followed. -/
def pending (loader : Loader) (places : List Path) : List Path :=
  places.filter fun place => !loader.followed.any (·.same place)

theorem mem_pending {places : List Path} :
    path ∈ loader.pending places ↔
      path ∈ places ∧ ¬ loader.IsFollowed path := by
  rw [pending, List.mem_filter, isFollowed_iff, Bool.not_eq_true,
    Bool.not_eq_true']

theorem Grows.sublist_pending (hgrows : first.Grows second)
    (places : List Path) :
    (second.pending places).Sublist (first.pending places) := by
  refine List.monotone_filter_right _ fun place hpending => ?_
  rw [Bool.not_eq_true', ← Bool.not_eq_true, ← isFollowed_iff] at hpending ⊢
  exact fun hfollowed => hpending (hgrows.isFollowed hfollowed)

/-- Following a module leaves fewer places to be followed. -/
theorem length_pending_mark_lt {places : List Path} {place : Path}
    (hplace : place ∈ places) (hsame : place.same module.path = true)
    (hnew : ¬ loader.IsFollowed module.path) :
    (Loader.pending { loader with
      followed := module.path :: loader.followed } places).length <
        (loader.pending places).length := by
  have hmark : loader.Grows
      { loader with followed := module.path :: loader.followed } :=
    .follow module.path .refl
  have hsublist := hmark.sublist_pending places
  have hbefore : place ∈ loader.pending places := by
    refine mem_pending.mpr ⟨hplace, fun ⟨marked, hmarked, hmarkedSame⟩ => ?_⟩
    refine hnew ⟨marked, hmarked, ?_⟩
    simp only [Path.same, decide_eq_true_eq] at hmarkedSame hsame ⊢
    exact hmarkedSame.trans hsame
  refine Nat.lt_of_le_of_ne hsublist.length_le fun hlength => ?_
  rw [← hsublist.eq_of_length hlength] at hbefore
  refine (mem_pending.mp hbefore).2 ⟨module.path, List.mem_cons_self, ?_⟩
  simpa [Path.same, eq_comm] using hsame

/-- A module that can be had at a path: it is known, or it can be read. -/
def Loads (loader : Loader) (path : Path) (module : Module) : Prop :=
  ∃ after, Loading.load path loader = .ok module after

theorem loads_iff_of_find? {outcome : Except BundleError Module}
    (hfound : loader.find? path = some outcome) :
    loader.Loads path module ↔ outcome = .ok module := by
  rw [Loads, Loading.load_of_find? hfound]
  constructor
  · rintro ⟨after, hrun⟩
    exact (Loading.ofOutcome_eq_ok hrun).1
  · rintro rfl
    exact ⟨loader, rfl⟩

theorem loads_iff_of_module (hmodule : loader.module path = .ok module) :
    loader.Loads path dependency ↔ dependency = module := by
  rw [loads_iff_of_find? (module_eq_ok_iff.mp hmodule), Except.ok.injEq,
    eq_comm]

/-- What loading one of the imports of a module gives. -/
def Obtains (loader : Loader) (module dependency : Module) : Prop :=
  ∃ source path, (source, .internal path) ∈ module.dependencies ∧
    loader.Loads path dependency

/-- A module leads on to what it imports if its own imports have not been
followed before. -/
def LeadsOn (before after : Loader) (module dependency : Module) : Prop :=
  ¬ before.IsFollowed module.path ∧ after.Obtains module dependency

/-- All that a module imports can be loaded. -/
def Opens (loader : Loader) (module : Module) : Prop :=
  ∀ source path, (source, .internal path) ∈ module.dependencies →
    ∃ dependency, loader.Loads path dependency

theorem Grows.leadsOn (hgrows : first.Grows second)
    (hleads : second.LeadsOn after module dependency) :
    first.LeadsOn after module dependency :=
  ⟨mt hgrows.isFollowed hleads.1, hleads.2⟩

/-- The loaders that come about without loading a graph in vain.  Modules may
have been asked for in vain. -/
inductive Untroubled (files : Files) (resolver : Resolver) : Loader → Prop
  | start : Untroubled files resolver (.ofFiles files resolver)
  | load (path : Path) {loader : Loader} : Untroubled files resolver loader →
      Untroubled files resolver ((Loading.load path).leave loader)
  | loadGraph {path : Path} {before after : Loader} {module : Module} :
      Untroubled files resolver before →
      Loading.loadGraph path before = .ok module after →
      Untroubled files resolver after

theorem Obtains.wouldImport (hobtains : loader.Obtains module dependency) :
    loader.WouldImport module dependency := by
  obtain ⟨source, path, hmem, hloads⟩ := hobtains
  exact ⟨source, path, hmem, fun found hfound =>
    (loads_iff_of_module hfound).mp hloads⟩

theorem HasFollowed.opens (hdone : loader.HasFollowed module) :
    loader.Opens module := by
  intro source path hmem
  obtain ⟨dependency, hfound, -⟩ := hdone _ hmem path rfl
  exact ⟨dependency, (loads_iff_of_module hfound).mpr rfl⟩

end Loader

namespace Loading

open Loader (places LeadsOn Opens)

variable {before after : Loader} {held : List (Path × String)} {path : Path}
  {module : Module} {error : BundleError}

theorem leave_of_error {α : Type} {operation : Loading α}
    (hrun : operation before = .error error after) :
    operation.leave before = after := by
  rw [leave, hrun]

/-- A path that fails to load is known to. -/
theorem find?_of_load_error (hrun : load path before = .error error after) :
    after.find? path = some (.error error) := by
  cases hfound : before.find? path with
  | some outcome =>
      rw [load_of_find? hfound] at hrun
      cases outcome with
      | ok module => cases hrun
      | error failure => cases hrun; exact hfound
  | none =>
      rw [load_of_new hfound] at hrun
      cases hread : before.readModule path with
      | ok module => rw [hread] at hrun; cases hrun
      | error failure =>
          rw [hread] at hrun
          cases hrun
          rw [Loader.find?_keeping, hfound]
          simp [Path.same]

/-- Following the imports of a module fails at one of them, which does not load
or of which the imports fail in turn. -/
theorem follow_error_cases {steps : Nat}
    (hrun : follow (steps + 1) module before = .error error after) :
    ¬ before.IsFollowed module.path ∧ ∃ source path between,
      (source, .internal path) ∈ module.dependencies ∧
      Loader.Grows { before with followed := module.path :: before.followed }
        between ∧
      (load path between = .error error after ∨ ∃ dependency loaded,
        load path between = .ok dependency loaded ∧
          follow steps dependency loaded = .error error after) := by
  rw [follow, Outcome.get_bind] at hrun
  split at hrun
  · cases hrun
  · rename_i hmarked
    rcases Outcome.bind_eq_error_iff.mp hrun with
      hset | ⟨_, marked, hset, hrun⟩
    · cases hset
    obtain rfl := Outcome.set_eq_ok_iff.mp hset
    obtain ⟨done, ⟨source, dependency⟩, rest, between, hvalues, hdone, hstep⟩ :=
      Outcome.forM_eq_error hrun
    cases dependency with
    | external specifier => cases hstep
    | internal path =>
        refine ⟨Loader.isFollowed_iff.not.mpr hmarked, source, path, between,
          ?_, ?_, Outcome.bind_eq_error_iff.mp hstep⟩
        · rw [hvalues]
          exact List.mem_append_right _ List.mem_cons_self
        · rw [← leave_of_ok hdone]
          exact IsGrowth.forM (IsGrowth.followEntry steps) done _

/-- Where following imports fails, it was led to a module that imports what
fails to load.  It is never cut short, since it marks one place at each
level. -/
theorem exists_of_follow_error {all : List Path} (steps : Nat)
    (hfaithful : before.IsFaithful) (hheld : before.files.Holds held)
    (hall : places held before.resolver ⊆ all)
    (hmodule : before.module module.path = .ok module)
    (hplace : ∃ place ∈ all, place.same module.path = true)
    (hsteps : (before.pending all).length < steps)
    (hrun : follow steps module before = .error error after) :
    ∃ last source path,
      Relation.ReflTransGen (LeadsOn before after) module last ∧
      ¬ before.IsFollowed last.path ∧
      (source, .internal path) ∈ last.dependencies ∧
      after.find? path = some (.error error) := by
  induction steps generalizing module before with
  | zero => exact absurd hsteps (Nat.not_lt_zero _)
  | succ steps ih =>
      obtain ⟨hmarked, source, path, between, hlisted, hloop, hfailed⟩ :=
        follow_error_cases hrun
      rcases hfailed with hload | ⟨dependency, loaded, hload, hfollow⟩
      · exact ⟨module, source, path, .refl, hmarked, hlisted,
          find?_of_load_error hload⟩
      · have hfound := load_eq_ok hload
        have hlater := hloop.trans (load_completes hload).grows
        have hpassage := (Loader.Grows.follow module.path .refl).trans hlater
        have hloaded := hpassage.isFaithful hfaithful
        rw [← hpassage.files_eq] at hheld
        rw [← hpassage.resolver_eq] at hall
        obtain ⟨place, hlies, hsame⟩ := hloaded.exists_place hheld
          (hpassage.module_eq_ok hmodule) hlisted hfound
        have hfewer : (loaded.pending all).length < steps := by
          obtain ⟨place, hmem, hsame⟩ := hplace
          have hmark := Loader.length_pending_mark_lt hmem hsame hmarked
          have hleft := (hlater.sublist_pending all).length_le
          omega
        obtain ⟨last, source, asked, hchain, hnew, hlast, herror⟩ :=
          ih hloaded hheld hall (hloaded.module_path hfound)
            ⟨place, hall hlies, hsame⟩ hfewer hfollow
        have hfollows := IsGrowth.follow steps dependency loaded
        rw [leave_of_error hfollow] at hfollows
        have hleads : LeadsOn before after module dependency :=
          ⟨hmarked, _, path, hlisted, (Loader.loads_iff_of_module
            (hfollows.module_eq_ok hfound)).mpr rfl⟩
        exact ⟨last, source, asked,
          .head hleads (.mono (fun _ _ => hpassage.leadsOn) _ _ hchain),
          mt hpassage.isFollowed hnew, hlast, herror⟩

/-- Loading a graph fails where its path does not load, or where it is led to a
module that imports what does not load. -/
theorem loadGraph_error_cases (hfaithful : before.IsFaithful)
    (hheld : before.files.Holds held)
    (hrun : loadGraph path before = .error error after) :
    after.find? path = some (.error error) ∨ ∃ module last source asked,
      after.module path = .ok module ∧
      Relation.ReflTransGen (LeadsOn before after) module last ∧
      ¬ before.IsFollowed last.path ∧
      (source, .internal asked) ∈ last.dependencies ∧
      after.find? asked = some (.error error) := by
  rcases Outcome.bind_eq_error_iff.mp hrun with
    hload | ⟨module, loaded, hload, hrun⟩
  · exact .inl (find?_of_load_error hload)
  · rw [Outcome.get_bind] at hrun
    rcases Outcome.bind_eq_error_iff.mp hrun with
      hfollow | ⟨_, final, _, hreturn⟩
    · have hgrows := (load_completes hload).grows
      have hloaded := hgrows.isFaithful hfaithful
      have hfound := load_eq_ok hload
      rw [← hgrows.files_eq] at hheld
      have hfew : (loaded.pending
          (module.path :: places held loaded.resolver)).length <
            loaded.capacity + 1 := by
        have hplaces := Loader.length_places_lt hheld
        have hpending := List.length_filter_le
          (fun place => !loaded.followed.any (·.same place))
          (module.path :: places held loaded.resolver)
        rw [List.length_cons] at hpending
        rw [Loader.pending]
        omega
      obtain ⟨last, source, asked, hchain, hnew, hlast, herror⟩ :=
        exists_of_follow_error _ hloaded hheld (List.subset_cons_self _ _)
          (hloaded.module_path hfound)
          ⟨module.path, List.mem_cons_self, by simp [Path.same]⟩ hfew hfollow
      have hfollows := IsGrowth.follow (loaded.capacity + 1) module loaded
      rw [leave_of_error hfollow] at hfollows
      exact .inr ⟨module, last, source, asked, hfollows.module_eq_ok hfound,
        .mono (fun _ _ => hgrows.leadsOn) _ _ hchain, mt hgrows.isFollowed hnew,
        hlast, herror⟩
    · cases hreturn

/-- A graph is loaded if its path loads and each module that is led to and was
not followed before has imports that load. -/
theorem loadGraph_of_opens (hfaithful : before.IsFaithful)
    (hheld : before.files.Holds held)
    (hafter : (loadGraph path).leave before = after)
    (hloads : after.Loads path module)
    (hopens : ∀ other,
      Relation.ReflTransGen (LeadsOn before after) module other →
        before.IsFollowed other.path ∨ after.Opens other) :
    ∃ module, loadGraph path before = .ok module after := by
  cases hrun : loadGraph path before with
  | ok found final =>
      rw [leave_of_ok hrun] at hafter
      exact ⟨found, by rw [hafter]⟩
  | error error final =>
      rw [leave_of_error hrun] at hafter
      subst hafter
      rcases loadGraph_error_cases hfaithful hheld hrun with
        herror |
          ⟨found, last, source, asked, hfound, hchain, hnew, hmem, herror⟩
      · cases (Loader.loads_iff_of_find? herror).mp hloads
      · obtain rfl := (Loader.loads_iff_of_module hfound).mp hloads
        obtain ⟨dependency, hasked⟩ :=
          (hopens last hchain).resolve_left hnew source asked hmem
        cases (Loader.loads_iff_of_find? herror).mp hasked

theorem followed_leave_load (path : Path) (loader : Loader) :
    ((load path).leave loader).followed = loader.followed := by
  cases hfound : loader.find? path with
  | some outcome =>
      have hleave : (load path).leave loader =
          (ofOutcome outcome).leave loader := by
        rw [leave, load_of_find? hfound, leave]
      rw [hleave, leave_ofOutcome]
  | none =>
      have hleave : (load path).leave loader =
          (ofOutcome (loader.readModule path)).leave
            (loader.keeping path (loader.readModule path)) := by
        rw [leave, load_of_new hfound, leave]
      rw [hleave, leave_ofOutcome]
      rfl

end Loading

namespace Loader.Untroubled

variable {files : Files} {resolver : Resolver} {loader : Loader}

theorem reachable (huntroubled : Untroubled files resolver loader) :
    Reachable files resolver loader := by
  induction huntroubled with
  | start => exact .start
  | load path _ ih => exact ih.load path
  | loadGraph _ hrun ih =>
      rw [← Loading.leave_of_ok hrun]
      exact ih.loadGraph _

theorem settled (huntroubled : Untroubled files resolver loader) :
    loader.Settled := by
  induction huntroubled with
  | start => exact settled_ofFiles files resolver
  | load path huntroubled ih =>
      exact (Completes.of_followed (Loading.IsGrowth.load path _)
        (Loading.followed_leave_load path _)).settled ih
  | loadGraph huntroubled hrun ih =>
      exact (Loading.loadGraph_completes huntroubled.reachable.isFaithful
        hrun).1.settled ih

end Loader.Untroubled

/-- Loading a graph tells whether its path loads, and with it what each module
reached through modules not followed before imports.  As long as no graph was
loaded in vain, it tells whether everything loads that is reached. -/
theorem Loading.loadGraph_succeeds_iff {files : Files} {resolver : Resolver}
    {loader : Loader} {held : List (Path × String)}
    (hreachable : Loader.Reachable files resolver loader)
    (hheld : files.Holds held) (path : Path) :
    let after := (loadGraph path).leave loader
    ((∃ module, loadGraph path loader = .ok module after) ↔
      ∃ module, after.Loads path module ∧ ∀ other,
        Relation.ReflTransGen (Loader.LeadsOn loader after) module other →
          loader.IsFollowed other.path ∨ after.Opens other) ∧
    (Loader.Untroubled files resolver loader →
      ((∃ module, loadGraph path loader = .ok module after) ↔
        ∃ module, after.Loads path module ∧ ∀ other,
          Relation.ReflTransGen after.Obtains module other →
            after.Opens other)) := by
  intro after
  have hfaithful := hreachable.isFaithful
  have hgrows : loader.Grows after := IsGrowth.loadGraph path loader
  have hafter := hgrows.isFaithful hfaithful
  have hfiles : loader.files = files := hreachable.grows.files_eq
  rw [← hfiles] at hheld
  constructor
  · constructor
    · rintro ⟨module, hrun⟩
      have hfound := loadGraph_eq_ok hrun
      obtain ⟨hcompletes, hfollowed⟩ := loadGraph_completes hfaithful hrun
      refine ⟨module, (Loader.loads_iff_of_module hfound).mpr rfl, ?_⟩
      intro other hchain
      by_cases hold : loader.IsFollowed other.path
      · exact .inl hold
      · obtain ⟨hother, hmarked⟩ := Loader.isFollowed_of_chain
          (hafter.module_path hfound) hfollowed hafter
          (fun hleads => hleads.2.wouldImport)
          (fun hleads hfirst hmarked =>
            hcompletes.hasFollowed hfirst hmarked hleads.1) hchain
        exact .inr (hcompletes.hasFollowed hother hmarked hold).opens
    · rintro ⟨module, hloads, hopens⟩
      exact loadGraph_of_opens hfaithful hheld rfl hloads hopens
  · intro huntroubled
    constructor
    · rintro ⟨module, hrun⟩
      have hfound := loadGraph_eq_ok hrun
      obtain ⟨hcompletes, hfollowed⟩ := loadGraph_completes hfaithful hrun
      have hsettled : after.Settled :=
        hcompletes.settled huntroubled.settled
      refine ⟨module, (Loader.loads_iff_of_module hfound).mpr rfl, ?_⟩
      intro other hchain
      obtain ⟨hother, hmarked⟩ := Loader.isFollowed_of_chain
        (hafter.module_path hfound) hfollowed hafter (·.wouldImport)
        (fun _ hfirst hmarked => hsettled.hasFollowed hfirst hmarked) hchain
      exact (hsettled.hasFollowed hother hmarked).opens
    · rintro ⟨module, hloads, hopens⟩
      refine loadGraph_of_opens hfaithful hheld rfl hloads fun other hchain =>
        .inr (hopens other ?_)
      exact .mono (fun _ _ hleads => hleads.2) _ _ hchain

/-- Two modules that import each other. -/
def importingCircle : Files := .ofList
  [(⟨"/a.js"⟩, "import './b';"), (⟨"/b.js"⟩, "import './a';")]

/-- A module that was asked for in vain leaves the graph of the two modules as
it is. -/
theorem Loading.loadGraph_succeeds_iff_importingCircle :
    let loader :=
      (load ⟨"/c.js"⟩).leave (.ofFiles importingCircle .plain)
    let after := (loadGraph ⟨"/a.js"⟩).leave loader
    loader.find? ⟨"/c.js"⟩ =
      some (.error (.unreadable ⟨"/c.js"⟩ "no such file")) ∧
    ∃ module, after.Loads ⟨"/a.js"⟩ module ∧ ∀ other,
      Relation.ReflTransGen after.Obtains module other → after.Opens other := by
  intro loader after
  have huntroubled : Loader.Untroubled importingCircle .plain loader :=
    .load _ .start
  have hfacts : Outcome.passes (loadGraph ⟨"/a.js"⟩) loader
      (fun _ _ => true) = true := by
    decide +kernel
  obtain ⟨module, final, hrun, -⟩ := Outcome.exists_of_passes hfacts
  have hafter : after = final := leave_of_ok hrun
  rw [← hafter] at hrun
  exact ⟨rfl, ((loadGraph_succeeds_iff huntroubled.reachable
    (Files.holds_ofList _) _).2 huntroubled).mp ⟨module, hrun⟩⟩

/-- A module that imports one that is missing. -/
def missingImport : Files := .ofList [(⟨"/m.js"⟩, "import './a';")]

/-- A graph that was loaded in vain is loaded with success the next time, though
what its entry module imports is still missing. -/
theorem Loading.loadGraph_again_missingImport :
    let loader :=
      (loadGraph ⟨"/m.js"⟩).leave (.ofFiles missingImport .plain)
    let after := (loadGraph ⟨"/m.js"⟩).leave loader
    (∃ module, loadGraph ⟨"/m.js"⟩ loader = .ok module after) ∧
    ¬ ∃ module, after.Loads ⟨"/m.js"⟩ module ∧ ∀ other,
      Relation.ReflTransGen after.Obtains module other → after.Opens other := by
  intro loader after
  have hfacts : Outcome.passes (loadGraph ⟨"/m.js"⟩) loader
      (fun module after =>
        decide (("./a", .internal ⟨"/a.js"⟩) ∈ module.dependencies) &&
        (after.find? ⟨"/a.js"⟩).any (·.toOption.isNone)) = true := by
    decide +kernel
  obtain ⟨module, final, hrun, hfacts⟩ := Outcome.exists_of_passes hfacts
  have hafter : after = final := leave_of_ok hrun
  rw [Bool.and_eq_true, decide_eq_true_eq, Option.any_eq_true] at hfacts
  obtain ⟨hmem, outcome, hmissing, hnone⟩ := hfacts
  rw [← hafter] at hrun hmissing
  refine ⟨⟨module, hrun⟩, ?_⟩
  rintro ⟨found, hloads, hopens⟩
  obtain rfl := (Loader.loads_iff_of_module (loadGraph_eq_ok hrun)).mp hloads
  obtain ⟨dependency, hdependency⟩ := hopens found .refl _ _ hmem
  obtain rfl := (Loader.loads_iff_of_find? hmissing).mp hdependency
  cases hnone

end Bundler
