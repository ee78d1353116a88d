import Bundler.Proofs.Graph.ExportNames
import Bundler.Proofs.Respelling.Basic

/-!
# Linking under other spellings

Where modules are known by other paths, imports lead to the same modules, and
what names refer to is the same under the other paths.
-/

namespace Bundler

variable {respelling : Respelling} {loader other : Loader}

section Modules

/-- What a source leads to depends on the steps to the importer, not on how they
are spelt. -/
theorem Module.resolve_spell (respelling : Respelling) (resolver : Resolver)
    (path : Path) (source : String) :
    resolve resolver (respelling.spell path) source =
      resolve resolver path source := by
  simp only [resolve, Resolver.resolve, Resolver.followDefault,
    Path.directoryParts, respelling.parts_spell]

theorem Loader.find?_spell (respelling : Respelling) (loader : Loader)
    (path : Path) :
    loader.find? (respelling.spell path) = loader.find? path := by
  simp only [find?, Respelling.same_spell_right]

namespace Loader.Respells

variable (hrespells : loader.Respells respelling other)
include hrespells

theorem module (path : Path) :
    other.module path = Except.change (LinkFailure.respell respelling)
      (Module.respell respelling) (loader.module path) := by
  rw [Loader.module, Loader.module, hrespells.find]
  cases hfound : loader.find? path with
  | none =>
      rw [Option.map_none, Except.change, LinkFailure.respell,
        hrespells.fixed path hfound]
  | some outcome => cases outcome <;> rfl

theorem module_spell (path : Path) :
    other.module (respelling.spell path) =
      Except.change (LinkFailure.respell respelling)
        (Module.respell respelling) (loader.module path) := by
  rw [Loader.module, Loader.module, Loader.find?_spell, hrespells.find]
  cases loader.find? path with
  | none => rfl
  | some outcome => cases outcome <;> rfl

theorem target (module : Module) (source : String) :
    other.target (module.respell respelling) source =
      Except.change (LinkFailure.respell respelling)
        (Target.respell respelling) (loader.target module source) := by
  rw [Loader.target, Loader.target]
  have hleads : ((module.respell respelling).dependency? source).getD
      (Module.resolve other.resolver (module.respell respelling).path source) =
        (module.dependency? source).getD
          (Module.resolve loader.resolver module.path source) := by
    rw [hrespells.resolver, Module.respell, Module.resolve_spell]
    rfl
  rw [hleads]
  cases (module.dependency? source).getD
      (Module.resolve loader.resolver module.path source) with
  | internal path =>
      simp only [hrespells.module path]
      cases loader.module path <;> rfl
  | external specifier => rfl

/-- The bound on the steps of a search is the same. -/
theorem searchBound : other.searchBound = loader.searchBound := by
  have hcounts := hrespells.modules.map fun module : Module =>
    module.imports.entries.length
  rw [List.map_map] at hcounts
  have hsum := hcounts.foldr_eq (f := (· + ·)) 0
  rw [Loader.searchBound, Loader.searchBound, hrespells.length, hsum]
  rfl

end Loader.Respells

end Modules

namespace Search

variable {α β : Type} {onValue : α → β}

/-- A search among modules that are known by other paths. -/
def Respells (respelling : Respelling) (onValue : α → β) (search : Search α)
    (mirror : Search β) : Prop :=
  Outcome.Mirrors (List.map fun place => (respelling.spell place.1, place.2))
    (LinkFailure.respell respelling) onValue search mirror

theorem ofExcept_respells {outcome : Except LinkFailure α}
    {image : Except LinkFailure β}
    (himage : image =
      Except.change (LinkFailure.respell respelling) onValue outcome) :
    Respells respelling onValue (ofExcept outcome) (ofExcept image) := by
  rw [himage]
  cases outcome with
  | ok value => exact .pure value
  | error failure => exact .throw failure

theorem orMissing_respells {search : Search α} {mirror : Search β}
    (hsearch : Respells respelling onValue search mirror) :
    Respells respelling (Option.map onValue) (orMissing search)
      (orMissing mirror) := by
  intro visited
  rw [orMissing, orMissing, hsearch visited]
  cases search visited with
  | ok value after => rfl
  | error failure after =>
      dsimp only
      rw [LinkFailure.isMissingExport_respell]
      split <;> rfl

theorem outcome_respells {search : Search α} {mirror : Search β}
    (hsearch : Respells respelling onValue search mirror) :
    mirror.outcome =
      Except.change (LinkFailure.respell respelling) onValue
        search.outcome := by
  rw [outcome, outcome]
  have hstart := hsearch []
  rw [List.map_nil] at hstart
  rw [hstart]
  cases search [] <;> rfl

end Search

namespace Loader.Respells

variable (hrespells : loader.Respells respelling other)
include hrespells

theorem followName {find mirror : Module → String → Path → Search Binding}
    (hfind : ∀ module name importer,
      Search.Respells respelling (Binding.respell respelling)
        (find module name importer)
        (mirror (module.respell respelling) name (respelling.spell importer)))
    (module : Module) (name : String) :
    Search.Respells respelling (Binding.respell respelling)
      (loader.followName find module name)
      (other.followName mirror (module.respell respelling) name) := by
  have himports : (module.respell respelling).imports = module.imports := rfl
  rw [Loader.followName, Loader.followName, himports]
  cases module.imports.get? name with
  | none => exact .pure _
  | some imported =>
      refine .bind (Search.ofExcept_respells
        (hrespells.target module imported.source)) fun target => ?_
      cases target with
      | external specifier => exact .pure _
      | internal dependency =>
          simp only [Target.respell]
          cases imported.name.exportName? with
          | none => exact .pure _
          | some exported => exact hfind dependency exported module.path

theorem searchStars {find mirror : Module → Search Binding}
    (hfind : ∀ module, Search.Respells respelling (Binding.respell respelling)
      (find module) (mirror (module.respell respelling)))
    (module : Module) (name : String) (missing : LinkFailure)
    (fallback : Option String) (sources : List String) :
    Search.Respells respelling (Binding.respell respelling)
      (loader.searchStars find module name missing fallback sources)
      (other.searchStars mirror (module.respell respelling) name
        (missing.respell respelling) fallback sources) := by
  induction sources generalizing fallback with
  | nil =>
      cases fallback with
      | none => exact .throw missing
      | some specifier => exact .pure _
  | cons source sources ih =>
      rw [Loader.searchStars, Loader.searchStars]
      refine .bind (Search.ofExcept_respells (hrespells.target module source))
        fun target => ?_
      cases target with
      | external specifier => exact ih _
      | internal dependency =>
          refine .bind (Search.orMissing_respells (hfind dependency))
            fun found => ?_
          cases found with
          | none => exact ih fallback
          | some binding => exact .pure binding

theorem searchExport (steps : Nat) (module : Module) (name : String)
    (importer : Path) :
    Search.Respells respelling (Binding.respell respelling)
      (loader.searchExport steps module name importer)
      (other.searchExport steps (module.respell respelling) name
        (respelling.spell importer)) := by
  induction steps generalizing module name importer with
  | zero => exact .throw _
  | succ steps ih =>
      intro visited
      have hmet : ((module.respell respelling).path, name) ∈ visited.map
          (fun place => (respelling.spell place.1, place.2)) ↔
            (module.path, name) ∈ visited := by
        simp [Module.respell]
      have hexports : (module.respell respelling).exports =
        module.exports := rfl
      rw [searchExport_succ, searchExport_succ, hexports]
      by_cases hvisited : (module.path, name) ∈ visited
      · simp only [hmet.mpr hvisited, hvisited, if_true]
        rfl
      · simp only [hmet.not.mpr hvisited, hvisited, if_false]
        cases module.exports.get? name with
        | some exported =>
            exact hrespells.followName ih module exported.localName
              ((module.path, name) :: visited)
        | none =>
            dsimp only
            split
            · rfl
            · exact hrespells.searchStars
                (fun dependency => ih dependency name module.path) module name
                (.refused (.missingExport module.path importer name)) none
                module.starSources ((module.path, name) :: visited)

theorem resolveExport (module : Module) (name : String) (importer : Path) :
    other.resolveExport (module.respell respelling) name
      (respelling.spell importer) =
        Except.change (LinkFailure.respell respelling)
          (Binding.respell respelling)
          (loader.resolveExport module name importer) := by
  rw [Loader.resolveExport, Loader.resolveExport, hrespells.searchBound]
  exact Search.outcome_respells (hrespells.searchExport _ module name importer)

theorem resolveName (module : Module) (name : String) :
    other.resolveName (module.respell respelling) name =
      Except.change (LinkFailure.respell respelling)
        (Binding.respell respelling) (loader.resolveName module name) := by
  rw [Loader.resolveName, Loader.resolveName, hrespells.searchBound]
  exact Search.outcome_respells
    (hrespells.followName (hrespells.searchExport _) module name)

end Loader.Respells

namespace Loader

/-- The names found, with the modules visited under the other paths. -/
def ExportNames.respell (respelling : Respelling) (found : ExportNames) :
    ExportNames :=
  ⟨found.names, found.visited.map respelling.spell⟩

namespace Respells

variable (hrespells : loader.Respells respelling other)
include hrespells

theorem collectExports (steps : Nat) (withDefault : Bool) (module : Module)
    (found : ExportNames) :
    other.collectExports steps withDefault (module.respell respelling)
      (found.respell respelling) =
        Except.change (LinkFailure.respell respelling)
          (ExportNames.respell respelling)
          (loader.collectExports steps withDefault module found) := by
  induction steps generalizing withDefault module found with
  | zero => rfl
  | succ steps ih =>
      have hmet : (module.respell respelling).path ∈
          (found.respell respelling).visited ↔
            module.path ∈ found.visited := by
        simp [Module.respell, ExportNames.respell]
      rw [collectExports_succ, collectExports_succ]
      by_cases hvisited : module.path ∈ found.visited
      · simp only [hmet.mpr hvisited, hvisited, if_true]
        rfl
      · simp only [hmet.not.mpr hvisited, hvisited, if_false]
        have hstart : visitOwn withDefault (module.respell respelling)
            (found.respell respelling) =
              (visitOwn withDefault module found).respell respelling := rfl
        rw [hstart]
        refine Except.foldlM_change (fun source _ found => ?_) _
        refine Except.bind_change (hrespells.target module source)
          fun target => ?_
        cases target with
        | external specifier => rfl
        | internal dependency => exact ih false dependency found

theorem exportNames (module : Module) :
    other.exportNames (module.respell respelling) =
      Except.change (LinkFailure.respell respelling) (fun names => names)
        (loader.exportNames module) := by
  rw [Loader.exportNames, Loader.exportNames, hrespells.length]
  exact Except.bind_change (hrespells.collectExports
    (loader.loaded.length + 1) true module ⟨[], []⟩) fun found => rfl

end Respells

end Loader

end Bundler
