import Bundler.Proofs.Graph.Search

/-!
# Names of exports

The names that a module exports are those of its own exports and, apart from the
default one, those of all modules that star exports lead to.  Collecting them and
searching for one of them are separate walks, and they agree as long as no star
export leads out of the bundle.
-/

namespace Bundler

theorem mem_foldl_pushNew {values found : List String} {name : String} :
    name ∈ values.foldl pushNew found ↔ name ∈ found ∨ name ∈ values := by
  induction values generalizing found with
  | nil => simp
  | cons value values ih =>
      rw [List.foldl_cons, ih, mem_pushNew, List.mem_cons, or_assoc]

namespace Loader

variable {loader : Loader} {module dependency other : Module}
  {name : String}

/-- A module star-exports what another one exports. -/
def StarImports (loader : Loader) (module dependency : Module) : Prop :=
  ∃ source ∈ module.starSources,
    loader.target module source = .ok (.internal dependency)

/-- A chain of star exports leads from a module to another one. -/
def StarReaches (loader : Loader) : Module → Module → Prop :=
  Relation.ReflTransGen loader.StarImports

theorem StarImports.loaded (hfaithful : loader.IsFaithful)
    (hstar : loader.StarImports module dependency) :
    loader.module dependency.path = .ok dependency := by
  obtain ⟨_, _, htarget⟩ := hstar
  exact hfaithful.module_of_target htarget

theorem StarReaches.loaded (hfaithful : loader.IsFaithful)
    (hmodule : loader.module module.path = .ok module)
    (hreaches : loader.StarReaches module other) :
    loader.module other.path = .ok other := by
  induction hreaches with
  | refl => exact hmodule
  | tail _ hstar _ => exact hstar.loaded hfaithful

/-- A module exports a name by itself, or passes it on from where a chain of star
exports leads. -/
def Exports (loader : Loader) (module : Module) (name : String) : Prop :=
  name ∈ module.exports.keys ∨ name ≠ defaultSlot ∧
    ∃ other, loader.StarReaches module other ∧ name ∈ other.exports.keys

section Distinct

/-- The names found so far stay distinct. -/
theorem nodup_collectExports (steps : Nat) {withDefault : Bool}
    {found after : ExportNames} (hnodup : found.names.Nodup)
    (hrun : loader.collectExports steps withDefault module found =
      .ok after) : after.names.Nodup := by
  induction steps generalizing withDefault module found after with
  | zero => cases hrun
  | succ steps ih =>
      rw [collectExports] at hrun
      split at hrun
      · rwa [← Except.ok.inj hrun]
      · refine Except.foldlM_induction (fun found => found.names.Nodup) ?_ ?_
          hrun
        · exact List.foldlRecOn _ pushNew
            (motive := fun names : List String => names.Nodup) hnodup
            fun _ hnames _ _ => nodup_pushNew hnames
        · intro source _ before next hbefore hstep
          obtain ⟨target, _, hstep⟩ := Except.bind_eq_ok_iff.mp hstep
          cases target with
          | internal dependency => exact ih hbefore hstep
          | external specifier => rwa [← Except.ok.inj hstep]

theorem nodup_exportNames {names : List String}
    (hnames : loader.exportNames module = .ok names) : names.Nodup := by
  obtain ⟨found, hcollect, hfound⟩ := Except.bind_eq_ok_iff.mp hnames
  rw [← Except.ok.inj hfound]
  exact loader.nodup_collectExports _ List.nodup_nil hcollect

end Distinct

section Collect

/-- The names that a module adds by itself. -/
def ownNames (withDefault : Bool) (module : Module) : List String :=
  module.exports.keys.filter fun name => withDefault || name ≠ defaultSlot

/-- What is found once a module is visited and before its star exports are. -/
def visitOwn (withDefault : Bool) (module : Module) (found : ExportNames) :
    ExportNames :=
  ⟨(ownNames withDefault module).foldl pushNew found.names,
    module.path :: found.visited⟩

/-- Goes on to the module that a star export leads to. -/
def collectStar (loader : Loader) (steps : Nat) (module : Module)
    (found : ExportNames) (source : String) :
    Except LinkFailure ExportNames := do
  match ← loader.target module source with
  | .external _ => return found
  | .internal dependency => loader.collectExports steps false dependency found

theorem collectExports_succ (steps : Nat) (withDefault : Bool)
    (found : ExportNames) :
    loader.collectExports (steps + 1) withDefault module found =
      if module.path ∈ found.visited then .ok found
      else module.starSources.foldlM (loader.collectStar steps module)
        (visitOwn withDefault module found) := by
  rw [collectExports]
  simp only [List.contains_iff_mem]
  rfl

/-- The passage to a later state of collecting.  All modules that were visited
newly have given their names and have had their star exports visited. -/
structure Gathers (loader : Loader) (root : Module)
    (before after : ExportNames) : Prop where
  visited : before.visited ⊆ after.visited
  names : before.names ⊆ after.names
  sound : ∀ name ∈ after.names, name ∈ before.names ∨
    name ≠ defaultSlot ∧ ∃ other, loader.StarReaches root other ∧
      name ∈ other.exports.keys
  closed : ∀ other : Module, loader.module other.path = .ok other →
    other.path ∈ after.visited → other.path ∉ before.visited →
      ownNames false other ⊆ after.names ∧
      ∀ dependency, loader.StarImports other dependency →
        dependency.path ∈ after.visited

namespace Gathers

variable {root : Module} {first second third : ExportNames}

theorem refl (state : ExportNames) : loader.Gathers root state state where
  visited := fun _ hmem => hmem
  names := fun _ hmem => hmem
  sound _ hname := .inl hname
  closed _ _ hmem hnew := absurd hmem hnew

theorem trans (hfirst : loader.Gathers root first second)
    (hsecond : loader.Gathers root second third) :
    loader.Gathers root first third where
  visited := List.Subset.trans hfirst.visited hsecond.visited
  names := List.Subset.trans hfirst.names hsecond.names
  sound name hname := by
    rcases hsecond.sound name hname with hold | hnew
    · exact hfirst.sound name hold
    · exact .inr hnew
  closed other hother hmem hnew := by
    by_cases hbetween : other.path ∈ second.visited
    · obtain ⟨hnames, hstars⟩ := hfirst.closed other hother hbetween hnew
      exact ⟨List.Subset.trans hnames hsecond.names,
        fun dependency hstar => hsecond.visited (hstars dependency hstar)⟩
    · exact hsecond.closed other hother hmem hbetween

theorem of_starImports (hstar : loader.StarImports root dependency)
    (hgathers : loader.Gathers dependency first second) :
    loader.Gathers root first second where
  visited := hgathers.visited
  names := hgathers.names
  sound name hname := by
    refine (hgathers.sound name hname).imp_right ?_
    rintro ⟨hnamed, other, hreaches, hexported⟩
    exact ⟨hnamed, other, .head hstar hreaches, hexported⟩
  closed := hgathers.closed

/-- A module is finished once its star exports are. -/
theorem finish (hmodule : loader.module module.path = .ok module)
    (hgathers : loader.Gathers module (visitOwn false module first) second)
    (hstars : ∀ dependency, loader.StarImports module dependency →
      dependency.path ∈ second.visited) :
    loader.Gathers module first second where
  visited := List.Subset.trans (List.subset_cons_self _ _) hgathers.visited
  names _ hname := hgathers.names (mem_foldl_pushNew.mpr (.inl hname))
  sound name hname := by
    rcases hgathers.sound name hname with hown | hstar
    · refine (mem_foldl_pushNew.mp hown).imp_right fun hown => ?_
      obtain ⟨hexported, hnamed⟩ := List.mem_filter.mp hown
      exact ⟨by simpa using hnamed, module, .refl, hexported⟩
    · exact .inr hstar
  closed other hother hmem hnew := by
    by_cases hsame : other.path = module.path
    · obtain rfl : other = module := by
        rw [hsame, hmodule] at hother
        exact (Except.ok.inj hother).symm
      exact ⟨fun _ hown => hgathers.names (mem_foldl_pushNew.mpr (.inr hown)),
        hstars⟩
    · exact hgathers.closed other hother hmem (by simp [visitOwn, hsame, hnew])

end Gathers

/-- The star exports of a module are visited one by one. -/
theorem foldlM_collectStar_gathers {steps : Nat} {found after : ExportNames}
    (hcollect : ∀ {dependency : Module} {found after : ExportNames},
      loader.StarImports module dependency →
      loader.collectExports steps false dependency found = .ok after →
        loader.Gathers dependency found after ∧
          dependency.path ∈ after.visited)
    (hrun : module.starSources.foldlM (loader.collectStar steps module) found =
      .ok after) :
    loader.Gathers module found after ∧
      ∀ dependency, loader.StarImports module dependency →
        dependency.path ∈ after.visited := by
  obtain ⟨_, hgathers, hdone⟩ := Except.foldlM_spec (fun _ => True)
    (loader.Gathers module)
    (fun source state => ∀ dependency,
      loader.target module source = .ok (.internal dependency) →
        dependency.path ∈ state.visited)
    .refl .trans
    (fun hgathers hvisited dependency htarget =>
      hgathers.visited (hvisited dependency htarget))
    (fun source hsource before next _ hstep => by
      obtain ⟨target, htarget, hstep⟩ := Except.bind_eq_ok_iff.mp hstep
      cases target with
      | external specifier =>
          obtain rfl := Except.ok.inj hstep
          refine ⟨trivial, .refl before, fun dependency hinternal => ?_⟩
          rw [htarget] at hinternal
          cases hinternal
      | internal dependency =>
          have hstar : loader.StarImports module dependency :=
            ⟨source, hsource, htarget⟩
          obtain ⟨hgathers, hvisited⟩ := hcollect hstar hstep
          refine ⟨trivial, hgathers.of_starImports hstar, fun other hother => ?_⟩
          rw [htarget] at hother
          obtain rfl := Target.internal.inj (Except.ok.inj hother)
          exact hvisited)
    trivial hrun
  refine ⟨hgathers, ?_⟩
  rintro dependency ⟨source, hsource, htarget⟩
  exact hdone source hsource dependency htarget

theorem collectExports_gathers (hfaithful : loader.IsFaithful) (steps : Nat)
    {found after : ExportNames}
    (hmodule : loader.module module.path = .ok module)
    (hrun : loader.collectExports steps false module found = .ok after) :
    loader.Gathers module found after ∧ module.path ∈ after.visited := by
  induction steps generalizing module found after with
  | zero => cases hrun
  | succ steps ih =>
      rw [collectExports_succ] at hrun
      split at hrun
      · rename_i hvisited
        obtain rfl := Except.ok.inj hrun
        exact ⟨.refl found, hvisited⟩
      · obtain ⟨hgathers, hstars⟩ := foldlM_collectStar_gathers
          (fun hstar hcollect => ih (hstar.loaded hfaithful) hcollect) hrun
        exact ⟨hgathers.finish hmodule hstars,
          hgathers.visited List.mem_cons_self⟩

/-- The names found are those that a module exports by itself or by stars. -/
theorem mem_exportNames_iff (hfaithful : loader.IsFaithful)
    (hmodule : loader.module module.path = .ok module) {names : List String}
    (hnames : loader.exportNames module = .ok names) :
    name ∈ names ↔ loader.Exports module name := by
  obtain ⟨after, hcollect, hfound⟩ := Except.bind_eq_ok_iff.mp hnames
  obtain rfl := Except.ok.inj hfound
  rw [collectExports_succ, if_neg List.not_mem_nil] at hcollect
  obtain ⟨hgathers, hstars⟩ := foldlM_collectStar_gathers
    (fun hstar hrun => collectExports_gathers hfaithful _
      (hstar.loaded hfaithful) hrun) hcollect
  have hown : ∀ {name : String}, name ∈ module.exports.keys ↔
      name ∈ (visitOwn true module ⟨[], []⟩).names := by
    simp [visitOwn, ownNames, mem_foldl_pushNew]
  -- A module that is visited is the first one, or one visited newly.
  have hsame : ∀ {other : Module}, loader.module other.path = .ok other →
      other.path ∈ (visitOwn true module ⟨[], []⟩).visited →
        other = module := by
    intro other hother hmem
    rw [List.mem_singleton.mp hmem, hmodule] at hother
    exact (Except.ok.inj hother).symm
  have hvisited : ∀ other, loader.StarReaches module other →
      loader.module other.path = .ok other ∧ other.path ∈ after.visited := by
    intro other hreaches
    induction hreaches with
    | refl => exact ⟨hmodule, hgathers.visited List.mem_cons_self⟩
    | @tail between last _ hstar ih =>
        refine ⟨hstar.loaded hfaithful, ?_⟩
        by_cases hmem : between.path ∈ (visitOwn true module ⟨[], []⟩).visited
        · exact hstars last (hsame ih.1 hmem ▸ hstar)
        · exact (hgathers.closed between ih.1 ih.2 hmem).2 last hstar
  constructor
  · exact fun hname => (hgathers.sound name hname).imp_left hown.mpr
  · rintro (hkey | ⟨hnamed, other, hreaches, hkey⟩)
    · exact hgathers.names (hown.mp hkey)
    · obtain ⟨hother, hmem⟩ := hvisited other hreaches
      by_cases hfirst : other.path ∈ (visitOwn true module ⟨[], []⟩).visited
      · exact hgathers.names (hown.mp (hsame hother hfirst ▸ hkey))
      · exact (hgathers.closed other hother hmem hfirst).1
          (List.mem_filter.mpr ⟨hkey, by simpa using hnamed⟩)

end Collect

section Settled

/-- Some module that star exports lead to has a star export whose module cannot
be had. -/
def StarBlocks (loader : Loader) (module : Module) (failure : LinkFailure) :
    Prop :=
  ∃ other, loader.StarReaches module other ∧ ∃ source ∈ other.starSources,
    loader.target other source = .error failure

/-- Collecting with a step for each module that is not visited yet comes to an
end, and it only fails for a module that cannot be had. -/
theorem collectExports_cases (hfaithful : loader.IsFaithful) (steps : Nat)
    (withDefault : Bool) (found : ExportNames)
    (hmodule : loader.module module.path = .ok module)
    (hsteps : ((loader.loaded.map (·.1)).toFinset \
      found.visited.toFinset).card < steps) :
    (∃ after,
      loader.collectExports steps withDefault module found = .ok after) ∨
    ∃ failure,
      loader.collectExports steps withDefault module found = .error failure ∧
      loader.StarBlocks module failure := by
  induction steps generalizing module withDefault found with
  | zero => exact absurd hsteps (Nat.not_lt_zero _)
  | succ steps ih =>
      rw [collectExports_succ]
      split
      · exact .inl ⟨found, rfl⟩
      · rename_i hnew
        have hplace : module.path ∈ (loader.loaded.map (·.1)).toFinset :=
          List.mem_toFinset.mpr (hfaithful.path_mem_loaded hmodule)
        -- Every module that is visited takes one of the steps.
        refine (Except.foldlM_cases (fun state : ExportNames =>
          module.path :: found.visited ⊆ state.visited)
          (loader.StarBlocks module) (loader.collectStar steps module)
          module.starSources ?_ (List.Subset.refl _)).imp_left
            fun ⟨after, hrun, _⟩ => ⟨after, hrun⟩
        intro source hsource before hbefore
        rw [collectStar]
        cases htarget : loader.target module source with
        | error failure =>
            exact .inr ⟨failure, rfl, module, .refl, source, hsource, htarget⟩
        | ok target =>
            cases target with
            | external specifier => exact .inl ⟨before, rfl, hbefore⟩
            | internal dependency =>
                have hstar : loader.StarImports module dependency :=
                  ⟨source, hsource, htarget⟩
                have hloaded := hstar.loaded hfaithful
                have hfewer := Nat.lt_of_lt_of_le
                  (card_unmet_lt hplace hnew hbefore)
                  (Nat.lt_succ_iff.mp hsteps)
                rcases ih false before hloaded hfewer with ⟨after, hrun⟩ |
                  ⟨failure, hrun, other, hreaches, hblocked⟩
                · have hgathers :=
                    (collectExports_gathers hfaithful _ hloaded hrun).1
                  exact .inl ⟨after, hrun,
                    List.Subset.trans hbefore hgathers.visited⟩
                · exact .inr ⟨failure, hrun, other, .head hstar hreaches,
                    hblocked⟩

theorem exportNames_cases (hfaithful : loader.IsFaithful)
    (hmodule : loader.module module.path = .ok module) :
    (∃ names, loader.exportNames module = .ok names) ∨
      ∃ failure, loader.exportNames module = .error failure ∧
        loader.StarBlocks module failure := by
  have hsteps : ((loader.loaded.map (·.1)).toFinset \
      ([] : List Path).toFinset).card < loader.loaded.length + 1 := by
    simpa [Nat.lt_succ_iff] using
      List.toFinset_card_le (loader.loaded.map (·.1))
  rw [exportNames]
  rcases collectExports_cases hfaithful _ true ⟨[], []⟩ hmodule hsteps with
    ⟨after, hrun⟩ | ⟨failure, hrun, hblocked⟩
  · rw [hrun]
    exact .inl ⟨after.names, rfl⟩
  · rw [hrun]
    exact .inr ⟨failure, rfl, hblocked⟩

end Settled

end Loader

end Bundler
