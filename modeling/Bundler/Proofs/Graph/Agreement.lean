import Bundler.Proofs.Graph.ExportNames

/-!
# Searching agrees with collecting

An export that the search answers for is one of the names collected.  The other
way round, where the modules behind star exports define what they export, the
search answers for every name collected, with the first definition in the order
of a depth-first walk along star exports.
-/

namespace Bundler

namespace Loader

variable {loader : Loader} {module other : Module} {name : String}
  {met : List (Path × String)} {route : List Nat} {binding : Binding}
  {failure : LinkFailure}

/-- All star exports behind a module lead to modules of the bundle. -/
def IsInside (loader : Loader) (module : Module) : Prop :=
  ∀ other, loader.StarReaches module other → ∀ source ∈ other.starSources,
    ∃ dependency, loader.target other source = .ok (.internal dependency)

/-- The modules behind the star exports of a module define by themselves what
they export under a name. -/
def DefinesLocally (loader : Loader) (module : Module) (name : String) : Prop :=
  ∀ other exported, loader.StarReaches module other →
    other.exports.get? name = some exported →
    other.imports.contains exported.localName = false

/-- A trail of star exports leads to a module with an export of its own. -/
structure LeadsToEntry (loader : Loader) (start : Path × String)
    (route : List Nat) (other : Module) (exported : Export) : Prop where
  trail : Trail loader.StarStep [] start route (other.path, start.2)
  loaded : loader.module other.path = .ok other
  entry : other.exports.get? start.2 = some exported

/-- No trail of star exports leads to an own export before this one. -/
structure LeadsToFirstEntry (loader : Loader) (start : Path × String)
    (route : List Nat) (other : Module) (exported : Export) : Prop
    extends loader.LeadsToEntry start route other exported where
  first : ∀ {further : List Nat} {later : Module} {found : Export},
    loader.LeadsToEntry start further later found →
      List.le route further

section Behind

variable {dependency : Module} {number : Nat} {next last place : Path × String}

theorem IsInside.behind (hinside : loader.IsInside module)
    (hreaches : loader.StarReaches module dependency) :
    loader.IsInside dependency :=
  fun other hbehind => hinside other (hreaches.trans hbehind)

theorem DefinesLocally.behind (hlocal : loader.DefinesLocally module name)
    (hreaches : loader.StarReaches module dependency) :
    loader.DefinesLocally dependency name :=
  fun other exported hbehind => hlocal other exported (hreaches.trans hbehind)

theorem Exports.of_starImports (hstar : loader.StarImports module dependency)
    (hnamed : name ≠ defaultSlot) (hexports : loader.Exports dependency name) :
    loader.Exports module name := by
  rcases hexports with hkey | ⟨_, other, hreaches, hkey⟩
  · exact .inr ⟨hnamed, dependency, .single hstar, hkey⟩
  · exact .inr ⟨hnamed, other, .head hstar hreaches, hkey⟩

variable (hmodule : loader.module module.path = .ok module)
include hmodule

theorem IsInside.not_fallsBack (hinside : loader.IsInside module)
    {specifier : String} :
    ¬ loader.FallsBack (module.path, name) number specifier := by
  rintro ⟨hloaded, _, _, hexternal⟩
  rw [hmodule] at hloaded
  obtain rfl := Except.ok.inj hloaded
  obtain ⟨source, hsource, houtside⟩ :=
    List.exists_of_findSome?_eq_some hexternal
  obtain ⟨dependency, htarget⟩ := hinside module .refl source hsource
  rw [outside?, htarget] at houtside
  cases houtside

theorem Stops.get? (hstops : loader.Stops (module.path, name) binding) :
    ∃ exported, module.exports.get? name = some exported := by
  cases hstops <;> grind

theorem Step.cases_own (hstep : loader.Step (module.path, name) number next) :
    (∃ exported imported, module.exports.get? name = some exported ∧
      module.imports.get? exported.localName = some imported) ∨
    name ≠ defaultSlot ∧ loader.StarStep (module.path, name) number next ∧
      ∃ dependency, loader.StarImports module dependency ∧
        next = (dependency.path, name) := by
  cases hstep with
  | passOn hloaded hexported himport =>
      rw [hmodule] at hloaded
      obtain rfl := Except.ok.inj hloaded
      exact .inl ⟨_, _, hexported, himport⟩
  | star hstar =>
      refine .inr ?_
      have hstep := hstar
      cases hstar with
      | star hloaded _ hnamed hsource htarget =>
          rw [hmodule] at hloaded
          obtain rfl := Except.ok.inj hloaded
          exact ⟨hnamed, hstep, _, ⟨_, List.mem_of_getElem? hsource, htarget⟩,
            rfl⟩

theorem DefinesLocally.starStep (hlocal : loader.DefinesLocally module name)
    (hstep : loader.Step (module.path, name) number next) :
    loader.StarStep (module.path, name) number next ∧
      ∃ dependency, loader.StarImports module dependency ∧
        next = (dependency.path, name) := by
  rcases hstep.cases_own hmodule with ⟨exported, imported, hentry, himport⟩ |
    ⟨_, hstar⟩
  · have habsent := hlocal module exported .refl hentry
    rw [NameMap.contains, himport] at habsent
    cases habsent
  · exact hstar

end Behind

/-- What a search ends at is an export, of the module itself or behind stars. -/
theorem Ends.exports (hfaithful : loader.IsFaithful)
    (hmodule : loader.module module.path = .ok module)
    (hinside : loader.IsInside module)
    (hends : loader.Ends met (module.path, name) route binding) :
    loader.Exports module name := by
  induction route generalizing met module with
  | nil =>
      obtain ⟨_, ⟨_, hstops⟩ | ⟨_, _, _, hroute, _⟩ |
        ⟨_, _, _, _, hroute, _⟩⟩ := hends.start_cases
      · exact .inl (NameMap.mem_keys_iff.mpr (hstops.get? hmodule))
      · cases hroute
      · cases hroute
  | cons number route ih =>
      obtain ⟨_, ⟨hroute, _⟩ | ⟨_, _, hfalls, _⟩ |
        ⟨_, _, _, hstep, hroute, hrest⟩⟩ := hends.start_cases
      · cases hroute
      · exact absurd hfalls (hinside.not_fallsBack hmodule)
      · obtain ⟨rfl, rfl⟩ := List.cons.inj hroute
        rcases hstep.cases_own hmodule with ⟨exported, _, hentry, _⟩ |
          ⟨hnamed, _, dependency, hstar, rfl⟩
        · exact .inl (NameMap.mem_keys_iff.mpr ⟨exported, hentry⟩)
        · exact .of_starImports hstar hnamed
            (ih (hstar.loaded hfaithful) (hinside.behind (.single hstar)) hrest)

section Local

variable (hfaithful : loader.IsFaithful)
  (hmodule : loader.module module.path = .ok module)
include hfaithful hmodule

/-- An export leads along star exports to a module that has it as its own. -/
theorem Exports.leadsToEntry (hexports : loader.Exports module name) :
    ∃ route other exported,
      loader.LeadsToEntry (module.path, name) route other exported := by
  have hown : ∀ {module : Module}, loader.module module.path = .ok module →
      name ∈ module.exports.keys → ∃ route other exported,
        loader.LeadsToEntry (module.path, name) route other exported := by
    intro module hloaded hkey
    obtain ⟨exported, hentry⟩ := NameMap.mem_keys_iff.mp hkey
    exact ⟨[], module, exported, .here List.not_mem_nil, hloaded, hentry⟩
  rcases hexports with hkey | ⟨hnamed, other, hreaches, hkey⟩
  · exact hown hmodule hkey
  · induction hreaches using Relation.ReflTransGen.head_induction_on with
    | refl => exact hown hmodule hkey
    | @head between next hstar _ ih =>
        cases hentry : between.exports.get? name with
        | some exported =>
            exact hown hmodule (NameMap.mem_keys_iff.mpr ⟨exported, hentry⟩)
        | none =>
            obtain ⟨_, last, exported, htrail, hloaded, hlast⟩ :=
              ih (hstar.loaded hfaithful)
            obtain ⟨source, hsource, htarget⟩ := hstar
            obtain ⟨index, hindex⟩ := List.mem_iff_getElem?.mp hsource
            obtain ⟨route, hlonger⟩ := htrail.prepend List.not_mem_nil
              (.star hmodule hentry hnamed hindex htarget)
            exact ⟨route, last, exported, hlonger, hloaded, hlast⟩

variable (hlocal : loader.DefinesLocally module name)
include hlocal

/-- The ways of a search that come by no re-exported import are along star
exports. -/
theorem starTrail_of_local {last : Path × String}
    (htrail : Trail loader.Step met (module.path, name) route last) :
    Trail loader.StarStep met (module.path, name) route last ∧
      ∃ other, loader.StarReaches module other ∧ last = (other.path, name) := by
  generalize hstart : (module.path, name) = start at htrail
  induction htrail generalizing module with
  | here hnew => exact ⟨.here hnew, module, .refl, hstart.symm⟩
  | step hnew hstep _ ih =>
      subst hstart
      obtain ⟨hstar, dependency, himports, hnext⟩ :=
        hlocal.starStep hmodule hstep
      obtain ⟨htrail, other, hreaches, hlast⟩ := ih
        (himports.loaded hfaithful) (hlocal.behind (.single himports)) hnext.symm
      exact ⟨.step hnew hstar htrail, other, .head himports hreaches, hlast⟩

theorem leadsTo_of_local {place : Path × String}
    (hleads : loader.Leads (module.path, name) place) :
    ∃ other, loader.StarReaches module other ∧
      place = (other.path, name) := by
  induction hleads with
  | refl => exact ⟨module, .refl, rfl⟩
  | tail _ hstep ih =>
      obtain ⟨other, hreaches, rfl⟩ := ih
      obtain ⟨_, hstep⟩ := hstep
      obtain ⟨_, dependency, himports, hnext⟩ :=
        (hlocal.behind hreaches).starStep (hreaches.loaded hfaithful hmodule)
          hstep
      exact ⟨dependency, .tail hreaches himports, hnext⟩

variable (hinside : loader.IsInside module)
include hinside

/-- Without re-exported imports and star exports that lead out of the bundle, a
search ends at the definitions behind star exports and nowhere else. -/
theorem ends_iff :
    loader.Ends [] (module.path, name) route binding ↔
      ∃ other exported,
        loader.LeadsToEntry (module.path, name) route other exported ∧
        binding = .definition other.path exported.localName := by
  constructor
  · rintro (⟨htrail, hstops⟩ | ⟨htrail, hfalls⟩)
    · obtain ⟨hstars, other, hreaches, rfl⟩ :=
        starTrail_of_local hfaithful hmodule hlocal htrail
      have hloaded := hreaches.loaded hfaithful hmodule
      obtain ⟨exported, hentry⟩ := hstops.get? hloaded
      have habsent := hlocal other exported hreaches hentry
      refine ⟨other, exported, ⟨hstars, hloaded, hentry⟩, ?_⟩
      cases hstops <;> grind [NameMap.contains]
    · obtain ⟨_, other, hreaches, rfl⟩ :=
        starTrail_of_local hfaithful hmodule hlocal htrail
      exact absurd hfalls ((hinside.behind hreaches).not_fallsBack
        (hreaches.loaded hfaithful hmodule))
  · rintro ⟨other, exported, ⟨htrail, hloaded, hentry⟩, rfl⟩
    have hsteps := htrail.mono Step.star
    obtain ⟨_, reached, hreaches, hlast⟩ :=
      starTrail_of_local hfaithful hmodule hlocal hsteps
    obtain rfl : other = reached := by
      have hfound := hreaches.loaded hfaithful hmodule
      rw [← (Prod.mk.inj hlast).1, hloaded] at hfound
      exact Except.ok.inj hfound
    have habsent := hlocal other exported hreaches hentry
    refine .own hsteps (.definition hloaded hentry ?_)
    simpa [NameMap.contains] using habsent

/-- A search for an export that is defined answers with the first definition. -/
theorem resolveExport_of_local (hexports : loader.Exports module name)
    (importer : Path) :
    ∃ route other exported,
      loader.LeadsToFirstEntry (module.path, name) route other exported ∧
      loader.resolveExport module name importer =
        .ok (.definition other.path exported.localName) := by
  rcases resolveExport_cases hfaithful hmodule name importer with
    ⟨binding, route, hresolve, hfirst⟩ | ⟨_, _, _, hnone⟩ |
    ⟨failure, place, _, hleads, hblocks⟩
  · obtain ⟨other, exported, hentry, rfl⟩ :=
      (ends_iff hfaithful hmodule hlocal hinside).mp hfirst.ends
    refine ⟨route, other, exported, ⟨hentry, fun hlater => ?_⟩, hresolve⟩
    exact hfirst.first _ _ ((ends_iff hfaithful hmodule hlocal hinside).mpr
      ⟨_, _, hlater, rfl⟩)
  · obtain ⟨route, other, exported, hentry⟩ :=
      hexports.leadsToEntry hfaithful hmodule
    exact absurd ((ends_iff hfaithful hmodule hlocal hinside).mpr
      ⟨other, exported, hentry, rfl⟩) (hnone route _)
  · -- Nothing behind the stars is in the way.
    obtain ⟨other, hreaches, rfl⟩ :=
      leadsTo_of_local hfaithful hmodule hlocal hleads
    have hloaded := hreaches.loaded hfaithful hmodule
    cases hblocks with
    | passOn hfound hentry himport _ =>
        rw [hloaded] at hfound
        obtain rfl := Except.ok.inj hfound
        have habsent := hlocal _ _ hreaches hentry
        rw [NameMap.contains, himport] at habsent
        cases habsent
    | star hfound _ _ hsource htarget =>
        rw [hloaded] at hfound
        obtain rfl := Except.ok.inj hfound
        obtain ⟨_, hinternal⟩ := hinside _ hreaches _ hsource
        rw [htarget] at hinternal
        cases hinternal

end Local

theorem exportNames_ne_unsettled (hfaithful : loader.IsFaithful)
    (hmodule : loader.module module.path = .ok module) (cut : Path) :
    loader.exportNames module ≠ .error (.refused (.unsettled cut)) := by
  intro hunsettled
  rcases exportNames_cases hfaithful hmodule with ⟨names, hnames⟩ |
    ⟨failure, hfailed, _, _, _, _, htarget⟩
  · rw [hunsettled] at hnames
    cases hnames
  · rw [hunsettled] at hfailed
    obtain rfl := Except.error.inj hfailed
    cases hfaithful.isLoading_of_target htarget with
    | refused hown => exact hown

/-- Both walks come to an end in every graph, and no name is listed twice.  Where
no star export leads out of the bundle, an export that the search answers for is
listed; and a name that is listed and defined behind star exports is answered
with its first definition in their order. -/
theorem exportNames_agrees {files : Files} {resolver : Resolver}
    (hreachable : Reachable files resolver loader)
    (hmodule : loader.module module.path = .ok module) :
    (∀ cut, loader.exportNames module ≠ .error (.refused (.unsettled cut))) ∧
    (∀ name importer cut, loader.resolveExport module name importer ≠
      .error (.refused (.unsettled cut))) ∧
    (∀ names, loader.exportNames module = .ok names → names.Nodup) ∧
    (loader.IsInside module → ∃ names, loader.exportNames module = .ok names ∧
      ∀ name importer,
        (∀ binding, loader.resolveExport module name importer = .ok binding →
          name ∈ names) ∧
        (name ∈ names → loader.DefinesLocally module name →
          ∃ route other exported,
            loader.LeadsToFirstEntry (module.path, name) route other exported ∧
            loader.resolveExport module name importer =
              .ok (.definition other.path exported.localName))) := by
  have hfaithful := hreachable.isFaithful
  refine ⟨exportNames_ne_unsettled hfaithful hmodule, fun _ _ cut =>
    resolveExport_ne_unsettled hfaithful hmodule cut,
    fun _ => nodup_exportNames, fun hinside => ?_⟩
  obtain ⟨names, hnames⟩ : ∃ names, loader.exportNames module = .ok names := by
    refine (exportNames_cases hfaithful hmodule).resolve_right ?_
    rintro ⟨_, _, other, hreaches, source, hsource, htarget⟩
    obtain ⟨_, hinternal⟩ := hinside other hreaches source hsource
    rw [htarget] at hinternal
    cases hinternal
  refine ⟨names, hnames, fun name importer => ⟨fun binding hresolve => ?_,
    fun hname hlocal => ?_⟩⟩
  · obtain ⟨_, hfirst⟩ := resolveExport_endsFirst hfaithful hmodule hresolve
    exact (mem_exportNames_iff hfaithful hmodule hnames).mpr
      (hfirst.ends.exports hfaithful hmodule hinside)
  · exact resolveExport_of_local hfaithful hmodule hlocal hinside
      ((mem_exportNames_iff hfaithful hmodule hnames).mp hname) importer

/-- Whether a source leads to a module of the bundle. -/
def leadsInside (loader : Loader) (module : Module) (source : String) : Bool :=
  match loader.target module source with
  | .ok (.internal _) => true
  | _ => false

/-- Two modules that star-export one another, with a name that both of two later
modules define. -/
def starCircle : Files := .ofList
  [(⟨"/a.js"⟩, "export * from './b';\nexport * from './c';"),
   (⟨"/b.js"⟩, "export * from './a';\nexport * from './d';"),
   (⟨"/c.js"⟩, "export let x = 1;"),
   (⟨"/d.js"⟩, "export let x = 2;\nexport default x;")]

/-- In a circle the search comes by the last module before the other stars. -/
theorem exportNames_agrees_starCircle :
    ∃ entry loader,
      Loading.loadGraph ⟨"/a.js"⟩ (.ofFiles starCircle .plain) =
        .ok entry loader ∧
      ∃ names, loader.exportNames entry = .ok names ∧ names.Nodup ∧
        "x" ∈ names ∧
        ∃ route other exported,
          loader.LeadsToFirstEntry (entry.path, "x") route other exported ∧
          loader.resolveExport entry "x" ⟨"/m.js"⟩ =
            .ok (.definition other.path exported.localName) := by
  have hfacts : Outcome.passes (Loading.loadGraph ⟨"/a.js"⟩)
      (.ofFiles starCircle .plain) (fun entry loader =>
        (loader.resolveExport entry "x" ⟨"/m.js"⟩).toOption.isSome &&
        loader.modules.all fun module =>
          decide (module.imports.entries = []) &&
          module.starSources.all (loader.leadsInside module)) = true := by
    decide +kernel
  obtain ⟨entry, loader, hload, hfacts⟩ := Outcome.exists_of_passes hfacts
  rw [Bool.and_eq_true, List.all_eq_true] at hfacts
  obtain ⟨hresolves, hmodules⟩ := hfacts
  obtain ⟨binding, hresolve⟩ := Option.isSome_iff_exists.mp hresolves
  have hreachable := Loader.Reachable.of_loadGraph hload
  have hfaithful := hreachable.isFaithful
  have hentry := hfaithful.module_path (Loading.loadGraph_eq_ok hload)
  have hchecked : ∀ other, loader.StarReaches entry other →
      other.imports.entries = [] ∧ ∀ source ∈ other.starSources,
        ∃ dependency, loader.target other source =
          .ok (.internal dependency) := by
    intro other hreaches
    have hmodule := hmodules other
      (mem_modules (hreaches.loaded hfaithful hentry))
    rw [Bool.and_eq_true, decide_eq_true_eq, List.all_eq_true] at hmodule
    refine ⟨hmodule.1, fun source hsource => ?_⟩
    have htarget := hmodule.2 source hsource
    rw [leadsInside] at htarget
    split at htarget
    · rename_i dependency hinternal
      exact ⟨dependency, hinternal⟩
    · cases htarget
  obtain ⟨_, _, hnodup, hagrees⟩ := exportNames_agrees hreachable hentry
  obtain ⟨names, hnames, hboth⟩ := hagrees fun other hreaches =>
    (hchecked other hreaches).2
  have hname : "x" ∈ names := (hboth "x" ⟨"/m.js"⟩).1 binding
    (Except.toOption_eq_some_iff.mp hresolve)
  refine ⟨entry, loader, hload, names, hnames, hnodup names hnames, hname,
    (hboth "x" ⟨"/m.js"⟩).2 hname fun other exported hreaches _ => ?_⟩
  rw [NameMap.contains, NameMap.get?, (hchecked other hreaches).1]
  rfl

end Loader

end Bundler
