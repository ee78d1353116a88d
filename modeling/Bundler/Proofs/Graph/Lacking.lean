import Bundler.Build.Order
import Bundler.Proofs.Graph.ExportNames
import Bundler.Proofs.Graph.Loaded

/-!
# Modules that are asked for

Where linking stops for want of a module, it lacks one that some module within
reach imports.  So nothing is asked for that loading the graph would not load, and
in a complete graph nothing is lacking.
-/

namespace Bundler

namespace Loader

variable {loader : Loader} {entry module other : Module} {path : Path}
  {name source : String} {importer : Path}

/-- A path that some module within reach imports and that is not loaded. -/
structure Lacks (loader : Loader) (entry : Module) (path : Path) : Prop where
  unloaded : loader.module path = .error (.unloaded path)
  imported : ∃ module source, loader.Reaches entry module ∧
    (source, .internal path) ∈ module.dependencies

theorem Lacks.of_reaches (hreaches : loader.Reaches entry module)
    (hlacks : loader.Lacks module path) : loader.Lacks entry path := by
  obtain ⟨other, source, hother, hmem⟩ := hlacks.imported
  exact ⟨hlacks.unloaded, other, source, hreaches.trans hother, hmem⟩

/-- A complete graph lacks nothing. -/
theorem IsComplete.not_lacks (hcomplete : loader.IsComplete entry) :
    ¬ loader.Lacks entry path := by
  intro hlacks
  obtain ⟨module, source, hreaches, hmem⟩ := hlacks.imported
  obtain ⟨dependency, hloaded⟩ := hcomplete module hreaches source path hmem
  rw [hlacks.unloaded] at hloaded
  cases hloaded

theorem eq_of_module_unloaded {asked : Path}
    (hmodule : loader.module asked = .error (.unloaded path)) : asked = path := by
  rw [Loader.module] at hmodule
  split at hmodule
  · cases hmodule
    rfl
  · cases hmodule
  · cases hmodule

/-- A name is settled where it stands, or its import cannot be had, or it is what
the module that its import leads to exports. -/
theorem resolveName_cases (loader : Loader) (module : Module) (name : String) :
    (∃ binding, loader.resolveName module name = .ok binding) ∨
    ∃ imported, module.imports.get? name = some imported ∧
      ((∃ failure, loader.target module imported.source = .error failure ∧
          loader.resolveName module name = .error failure) ∨
        ∃ dependency exported,
          loader.target module imported.source = .ok (.internal dependency) ∧
          loader.resolveName module name =
            loader.resolveExport dependency exported module.path) := by
  cases himport : module.imports.get? name with
  | none =>
      refine .inl ⟨.definition module.path name, ?_⟩
      rw [resolveName, followName, himport]
      rfl
  | some imported =>
      rw [resolveName, followName, himport]
      dsimp only
      cases htarget : loader.target module imported.source with
      | error failure => exact .inr ⟨imported, rfl, .inl ⟨failure, htarget, rfl⟩⟩
      | ok target =>
          cases target with
          | external specifier => exact .inl ⟨_, rfl⟩
          | internal dependency =>
              cases hexported : imported.name.exportName? with
              | none => exact .inl ⟨_, rfl⟩
              | some exported =>
                  exact .inr ⟨imported, rfl, .inr
                    ⟨dependency, exported, htarget, rfl⟩⟩

section Link

variable (hfaithful : loader.IsFaithful)
include hfaithful

theorem lacks_of_target (hmodule : loader.module module.path = .ok module)
    (hsource : source ∈ module.interface.sources)
    (htarget : loader.target module source = .error (.unloaded path)) :
    loader.Lacks module path := by
  have hlisted : (source, Module.resolve loader.resolver module.path source) ∈
      module.dependencies := by
    rw [hfaithful.dependencies_eq hmodule]
    exact List.mem_map.mpr ⟨source, hsource, rfl⟩
  obtain ⟨⟨found, dependency⟩, hentry⟩ : ∃ entry,
      module.dependencies.find? (·.1 = source) = some entry := by
    rw [← Option.isSome_iff_exists, List.find?_isSome]
    exact ⟨_, hlisted, by simp⟩
  rw [Loader.target, Module.dependency?, hentry] at htarget
  cases dependency with
  | external specifier => cases htarget
  | internal asked =>
      have hfailed : loader.module asked = .error (.unloaded path) := by
        cases houtcome : loader.module asked with
        | ok dependency => simp [houtcome, Except.map] at htarget
        | error failure => simpa [houtcome, Except.map] using htarget
      obtain rfl := eq_of_module_unloaded hfailed
      exact ⟨hfailed, module, found, .refl,
        List.mem_of_find?_eq_some hentry⟩

/-- The steps of a search stay within reach. -/
theorem Step.reaches {place next : Path × String} {number : Nat}
    (hstep : loader.Step place number next)
    (hmodule : loader.module place.1 = .ok module)
    (hloaded : loader.module module.path = .ok module) :
    ∃ other, loader.module next.1 = .ok other ∧ other.path = next.1 ∧
      loader.Imports module other := by
  have hsourced := (hfaithful.isSourced hloaded).1
  cases hstep with
  | @passOn path found dependency name exportedName exported imported hfound _
      himport htarget _ =>
      obtain rfl := Except.ok.inj (hmodule ▸ hfound)
      exact ⟨dependency, hfaithful.module_of_target htarget, rfl,
        hfaithful.imports_of_target hloaded (hsourced.imports himport) htarget⟩
  | star hstar =>
      cases hstar with
      | star hfound _ _ hsource htarget =>
          obtain rfl := Except.ok.inj (hmodule ▸ hfound)
          exact ⟨_, hfaithful.module_of_target htarget, rfl,
            hfaithful.imports_of_target hloaded
              (hsourced.stars _ (List.mem_of_getElem? hsource)) htarget⟩

theorem Leads.reaches {place : Path × String}
    (hmodule : loader.module module.path = .ok module)
    (hleads : loader.Leads (module.path, name) place) :
    ∃ other, loader.module place.1 = .ok other ∧ other.path = place.1 ∧
      loader.Reaches module other := by
  induction hleads with
  | refl => exact ⟨module, hmodule, rfl, .refl⟩
  | tail _ hstep ih =>
      obtain ⟨between, hbetween, hpath, hreaches⟩ := ih
      obtain ⟨number, hstep⟩ := hstep
      obtain ⟨other, hother, hsame, himports⟩ :=
        hstep.reaches hfaithful hbetween (hpath ▸ hbetween)
      exact ⟨other, hother, hsame, hreaches.tail himports⟩

theorem Blocks.lacks {place : Path × String}
    (hblocks : loader.Blocks place (.unloaded path))
    (hmodule : loader.module place.1 = .ok module)
    (hloaded : loader.module module.path = .ok module) :
    loader.Lacks module path := by
  have hsourced := (hfaithful.isSourced hloaded).1
  cases hblocks with
  | passOn hfound _ himport htarget =>
      obtain rfl := Except.ok.inj (hmodule ▸ hfound)
      exact lacks_of_target hfaithful hloaded (hsourced.imports himport) htarget
  | star hfound _ _ hsource htarget =>
      obtain rfl := Except.ok.inj (hmodule ▸ hfound)
      exact lacks_of_target hfaithful hloaded (hsourced.stars _ hsource) htarget

theorem StarReaches.reaches (hmodule : loader.module module.path = .ok module)
    (hstars : loader.StarReaches module other) :
    loader.Reaches module other := by
  induction hstars with
  | refl => exact .refl
  | tail hbefore hstar ih =>
      obtain ⟨source, hsource, htarget⟩ := hstar
      have hloaded := StarReaches.loaded hfaithful hmodule hbefore
      exact ih.tail (hfaithful.imports_of_target hloaded
        ((hfaithful.isSourced hloaded).1.stars source hsource) htarget)

variable (hmodule : loader.module module.path = .ok module)
include hmodule

/-- Looking for an export lacks only what is imported within reach. -/
theorem lacks_of_resolveExport
    (hresolve : loader.resolveExport module name importer =
      .error (.unloaded path)) : loader.Lacks module path := by
  rcases resolveExport_cases hfaithful hmodule name importer with
    ⟨_, _, hfound, _⟩ | ⟨failure, hfailed, hmissing, _⟩ |
    ⟨failure, place, hfailed, hleads, hblocks⟩
  · rw [hresolve] at hfound
    cases hfound
  · rw [hresolve] at hfailed
    obtain rfl := Except.error.inj hfailed
    cases hmissing
  · rw [hresolve] at hfailed
    obtain rfl := Except.error.inj hfailed
    obtain ⟨other, hother, hpath, hreaches⟩ := hleads.reaches hfaithful hmodule
    exact (hblocks.lacks hfaithful hother (hpath ▸ hother)).of_reaches hreaches

/-- Looking for what a name refers to lacks only what is imported within
reach. -/
theorem lacks_of_resolveName
    (hresolve : loader.resolveName module name = .error (.unloaded path)) :
    loader.Lacks module path := by
  rcases resolveName_cases loader module name with ⟨_, hfound⟩ |
    ⟨imported, himport, ⟨failure, htarget, hfailed⟩ |
      ⟨dependency, exported, htarget, hsearch⟩⟩
  · rw [hresolve] at hfound
    cases hfound
  · rw [hresolve] at hfailed
    obtain rfl := Except.error.inj hfailed
    exact lacks_of_target hfaithful hmodule
      ((hfaithful.isSourced hmodule).1.imports himport) htarget
  · rw [hresolve] at hsearch
    have himports := hfaithful.imports_of_target hmodule
      ((hfaithful.isSourced hmodule).1.imports himport) htarget
    exact (lacks_of_resolveExport hfaithful (hfaithful.module_of_imports himports)
      hsearch.symm).of_reaches (.single himports)

omit hmodule in
/-- Looking for what a name refers to is never cut short. -/
theorem resolveName_ne_unsettled (cut : Path) :
    loader.resolveName module name ≠ .error (.refused (.unsettled cut)) := by
  intro hunsettled
  rcases resolveName_cases loader module name with ⟨_, hfound⟩ |
    ⟨imported, _, ⟨failure, htarget, hfailed⟩ |
      ⟨dependency, exported, htarget, hsearch⟩⟩
  · rw [hunsettled] at hfound
    cases hfound
  · rw [hunsettled] at hfailed
    obtain rfl := Except.error.inj hfailed
    cases hfaithful.isLoading_of_target htarget with
    | refused hown => exact hown
  · rw [hunsettled] at hsearch
    exact resolveExport_ne_unsettled hfaithful
      (hfaithful.module_of_target htarget) cut hsearch.symm

theorem lacks_of_exportNames
    (hnames : loader.exportNames module = .error (.unloaded path)) :
    loader.Lacks module path := by
  rcases exportNames_cases hfaithful hmodule with
    ⟨names, hfound⟩ | ⟨failure, hfailed, other, hstars, source, hsource, htarget⟩
  · rw [hnames] at hfound
    cases hfound
  · rw [hnames] at hfailed
    obtain rfl := Except.error.inj hfailed
    have hloaded := StarReaches.loaded hfaithful hmodule hstars
    exact (lacks_of_target hfaithful hloaded
      ((hfaithful.isSourced hloaded).1.stars source hsource) htarget).of_reaches
        (StarReaches.reaches hfaithful hmodule hstars)

end Link

end Loader

end Bundler
