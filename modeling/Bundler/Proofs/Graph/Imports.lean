import Bundler.Proofs.Analysis.Definers
import Bundler.Proofs.Analysis.Sources
import Mathlib.Logic.Relation

/-!
# Imports between modules

A module imports those that its sources lead to, and reaches what chains of
imports lead to.  Following a name through imports, re-exports and star exports
goes along such chains, so a name refers to something of a module that is
reached, or of a module outside the bundle that one of them names.
-/

namespace Bundler

namespace Loader

variable (loader : Loader)

/-- A module names another one as the source of an import. -/
def Imports (module dependency : Module) : Prop :=
  ∃ source path, (source, .internal path) ∈ module.dependencies ∧
    loader.module path = .ok dependency

/-- A chain of imports leads from a module to another one. -/
def Reaches : Module → Module → Prop := Relation.ReflTransGen loader.Imports

/-- A binding refers to something that a module reaches: to a name that one of
the modules reached defines, to the exports of one, or to a module outside the
bundle that one of them imports. -/
inductive LeadsTo (module : Module) : Binding → Prop
  | definition {other : Module} {name : String} {id : Nat} :
      loader.Reaches module other →
      other.imports.contains name = false →
      other.definitions.get? name = some id →
      LeadsTo module (.definition other.path name)
  | exportsOf {other : Module} :
      loader.Reaches module other → LeadsTo module (.exportsOf other.path)
  | external {other : Module} {source specifier : String}
      {name : ImportedName} :
      loader.Reaches module other →
      (source, .external specifier) ∈ other.dependencies →
      LeadsTo module (.external specifier name)

variable {loader} {path : Path} {module dependency other : Module}
  {source specifier : String}

/-- What a dependency leads to its importers lead to. -/
theorem LeadsTo.of_imports {binding : Binding}
    (himports : loader.Imports module dependency)
    (hleads : loader.LeadsTo dependency binding) :
    loader.LeadsTo module binding := by
  cases hleads with
  | definition hreaches hlocal hdefinition =>
      exact .definition (.head himports hreaches) hlocal hdefinition
  | exportsOf hreaches => exact .exportsOf (.head himports hreaches)
  | external hreaches hexternal =>
      exact .external (.head himports hreaches) hexternal

namespace IsFaithful

variable (hfaithful : loader.IsFaithful)
include hfaithful

theorem module_of_imports (himports : loader.Imports module dependency) :
    loader.module dependency.path = .ok dependency := by
  obtain ⟨_, path, _, hfound⟩ := himports
  exact hfaithful.module_path hfound

/-- The modules reached from one that is loaded are loaded. -/
theorem module_of_reaches (hmodule : loader.module module.path = .ok module)
    (hreaches : loader.Reaches module other) :
    loader.module other.path = .ok other := by
  cases Relation.ReflTransGen.cases_tail hreaches with
  | inl hsame => exact hsame ▸ hmodule
  | inr htail =>
      obtain ⟨_, _, himports⟩ := htail
      exact hfaithful.module_of_imports himports

variable (hmodule : loader.module path = .ok module)
include hmodule

/-- The dependencies of a module are what its sources lead to. -/
theorem dependencies_eq :
    module.dependencies = module.interface.sources.map fun source =>
      (source, Module.resolve loader.resolver module.path source) := by
  have hsource := (hfaithful.module_eq_ok hmodule).2
  simp only [Module.ofSource, Except.bind_eq_ok_iff, pure, Except.pure,
    Except.ok.injEq] at hsource
  obtain ⟨_, _, analysis, _, hmade⟩ := hsource
  have hinterface : module.interface = analysis.interface := by rw [← hmade]
  rw [hinterface]
  conv_lhs => rw [← hmade]

/-- An internal dependency lies where its source is resolved to. -/
theorem resolve_of_mem_dependencies {target : Path}
    (hmem : (source, .internal target) ∈ module.dependencies) :
    source ∈ module.interface.sources ∧
      loader.resolver.resolve source module.path = some target := by
  rw [hfaithful.dependencies_eq hmodule] at hmem
  obtain ⟨specifier, hsource, hlisted⟩ := List.mem_map.mp hmem
  obtain ⟨rfl, htarget⟩ := Prod.mk.inj hlisted
  refine ⟨hsource, ?_⟩
  rw [Module.resolve] at htarget
  split at htarget
  · rename_i found hfound
    rw [hfound, Dependency.internal.inj htarget]
  · cases htarget

/-- A source that is listed leads to a dependency. -/
theorem mem_dependencies_of_target {target : Target}
    (hsource : source ∈ module.interface.sources)
    (htarget : loader.target module source = .ok target) :
    ∃ entry ∈ module.dependencies, match entry.2 with
      | .internal path => (loader.module path).map .internal = .ok target
      | .external specifier => .external specifier = target := by
  have hlisted : (source, Module.resolve loader.resolver module.path source) ∈
      module.dependencies := by
    rw [hfaithful.dependencies_eq hmodule]
    exact List.mem_map.mpr ⟨source, hsource, rfl⟩
  obtain ⟨entry, hentry⟩ : ∃ entry,
      module.dependencies.find? (·.1 = source) = some entry := by
    rw [← Option.isSome_iff_exists, List.find?_isSome]
    exact ⟨_, hlisted, by simp⟩
  refine ⟨entry, List.mem_of_find?_eq_some hentry, ?_⟩
  rw [Loader.target, Module.dependency?, hentry] at htarget
  obtain ⟨found, dependency⟩ := entry
  cases dependency with
  | internal path => exact htarget
  | external specifier => exact Except.ok.inj htarget

theorem imports_of_target (hsource : source ∈ module.interface.sources)
    (htarget : loader.target module source = .ok (.internal dependency)) :
    loader.Imports module dependency := by
  obtain ⟨⟨found, target⟩, hentry, hmatch⟩ :=
    hfaithful.mem_dependencies_of_target hmodule hsource htarget
  cases target with
  | internal path =>
      obtain ⟨_, hfound, hsame⟩ := Except.map_eq_ok_iff.mp hmatch
      obtain rfl := Target.internal.inj hsame
      exact ⟨found, path, hentry, hfound⟩
  | external specifier => cases hmatch

theorem external_of_target (hsource : source ∈ module.interface.sources)
    (htarget : loader.target module source = .ok (.external specifier)) :
    ∃ source, (source, .external specifier) ∈ module.dependencies := by
  obtain ⟨⟨found, target⟩, hentry, hmatch⟩ :=
    hfaithful.mem_dependencies_of_target hmodule hsource htarget
  cases target with
  | internal path =>
      obtain ⟨_, _, hsame⟩ := Except.map_eq_ok_iff.mp hmatch
      cases hsame
  | external other =>
      obtain rfl := Target.external.inj hmatch
      exact ⟨found, hentry⟩

/-- Imports, star exports and bare imports come from sources that are listed. -/
theorem isSourced : module.interface.IsSourced ∧
    ∀ statement ∈ module.statements, ∀ source isBare,
      statement.kind = .importing source isBare →
      source ∈ module.interface.sources := by
  obtain ⟨program, _, hanalysis⟩ := hfaithful.ofProgram_eq_ok hmodule
  obtain ⟨kinds, usages, hkinds, _, _, hstatements, _⟩ :=
    Analysis.ofProgram_eq_ok hanalysis
  obtain ⟨hsourced, hlisted⟩ := Interface.isSourced_ofStatements hkinds
  refine ⟨hsourced, fun statement hstatement source isBare hkind => ?_⟩
  rw [hstatements, List.mem_map] at hstatement
  obtain ⟨⟨⟨node, kind⟩, others⟩, hmem, rfl⟩ := hstatement
  have himporting : kind = .importing source isBare := hkind
  apply hlisted source isBare
  rw [← himporting]
  exact (List.of_mem_zip (List.of_mem_zip hmem).1).2

end IsFaithful

end Loader

namespace Search

variable {α : Type}

@[simp]
theorem ofExcept_eq_ok_iff {outcome : Except LinkFailure α} {result : α}
    {before after : List (Path × String)} :
    ofExcept outcome before = .ok result after ↔
      outcome = .ok result ∧ before = after := by
  cases outcome with
  | error failure =>
      constructor
      · exact fun hthrow => absurd hthrow Outcome.throw_ne_ok
      · exact fun heq => absurd heq.1 (by simp)
  | ok value => simp [ofExcept]

theorem orMissing_eq_ok {search : Search α} {value : α}
    {before after : List (Path × String)}
    (hrun : orMissing search before = .ok (some value) after) :
    search before = .ok value after := by
  rw [orMissing] at hrun
  split at hrun
  · rename_i found visited hfound
    obtain ⟨hsame, rfl⟩ := EStateM.Result.ok.inj hrun
    rw [hfound, Option.some.inj hsame]
  · split at hrun
    · cases (EStateM.Result.ok.inj hrun).1
    · cases hrun

theorem outcome_eq_ok {search : Search α} {value : α}
    (hrun : search.outcome = .ok value) :
    ∃ after, search [] = .ok value after := by
  rw [outcome] at hrun
  split at hrun
  · rename_i found visited hfound
    exact ⟨visited, hfound.trans (by rw [Except.ok.inj hrun])⟩
  · cases hrun

end Search

namespace Loader

variable {loader : Loader} {module dependency : Module}
  {before after : List (Path × String)} {binding : Binding} {name : String}

section Follow

variable (hfaithful : loader.IsFaithful)
  (hmodule : loader.module module.path = .ok module)
include hfaithful hmodule

/-- A name that is an import or has a definition leads to what is found on its
behalf in a dependency. -/
theorem followName_leadsTo {find : Module → String → Path → Search Binding}
    (hfind : ∀ {dependency : Module}, loader.Imports module dependency →
      ∀ {exported : String} {before after : List (Path × String)}
        {binding : Binding},
        find dependency exported module.path before = .ok binding after →
          loader.LeadsTo dependency binding)
    (hdefined : module.imports.contains name = true ∨
      ∃ id, module.definitions.get? name = some id)
    (hrun : loader.followName find module name before = .ok binding after) :
    loader.LeadsTo module binding := by
  rw [followName] at hrun
  cases himport : module.imports.get? name with
  | none =>
      have hlocal : module.imports.contains name = false := by
        simp [NameMap.contains, himport]
      rw [himport] at hrun
      obtain ⟨rfl, _⟩ := Outcome.pure_eq_ok_iff.mp hrun
      obtain ⟨id, hdefinition⟩ :=
        hdefined.resolve_left (Bool.eq_false_iff.mp hlocal)
      exact .definition .refl hlocal hdefinition
  | some imported =>
      rw [himport] at hrun
      have hsource := (hfaithful.isSourced hmodule).1.imports himport
      obtain ⟨target, _, hlookup, hrun⟩ := Outcome.bind_eq_ok_iff.mp hrun
      obtain ⟨htarget, rfl⟩ := Search.ofExcept_eq_ok_iff.mp hlookup
      cases target with
      | external specifier =>
          obtain ⟨rfl, _⟩ := Outcome.pure_eq_ok_iff.mp hrun
          obtain ⟨_, hexternal⟩ :=
            hfaithful.external_of_target hmodule hsource htarget
          exact .external .refl hexternal
      | internal dependency =>
          have himports :=
            hfaithful.imports_of_target hmodule hsource htarget
          cases hexport : imported.name.exportName? with
          | none =>
              simp only [hexport] at hrun
              obtain ⟨rfl, _⟩ := Outcome.pure_eq_ok_iff.mp hrun
              exact .exportsOf (.single himports)
          | some exported =>
              simp only [hexport] at hrun
              exact .of_imports himports (hfind himports hrun)

/-- Star exports lead to what is found in a dependency, or out of the bundle by
one of them. -/
theorem searchStars_leadsTo {find : Module → Search Binding}
    (hfind : ∀ {dependency : Module}, loader.Imports module dependency →
      ∀ {before after : List (Path × String)} {binding : Binding},
        find dependency before = .ok binding after →
          loader.LeadsTo dependency binding)
    {missing : LinkFailure} {fallback : Option String}
    (hfallback : ∀ specifier ∈ fallback,
      ∃ source, (source, .external specifier) ∈ module.dependencies)
    {sources : List String}
    (hsources : ∀ source ∈ sources, source ∈ module.interface.sources)
    (hrun : loader.searchStars find module name missing fallback sources
      before = .ok binding after) :
    loader.LeadsTo module binding := by
  induction sources generalizing fallback before with
  | nil =>
      cases fallback with
      | none => exact absurd hrun Outcome.throw_ne_ok
      | some specifier =>
          obtain ⟨rfl, _⟩ := Outcome.pure_eq_ok_iff.mp hrun
          obtain ⟨_, hexternal⟩ := hfallback specifier rfl
          exact .external .refl hexternal
  | cons source sources ih =>
      have hothers : ∀ source ∈ sources, source ∈ module.interface.sources :=
        fun other hother => hsources other (List.mem_cons_of_mem source hother)
      have hsource := hsources source List.mem_cons_self
      rw [searchStars] at hrun
      obtain ⟨target, _, hlookup, hrun⟩ := Outcome.bind_eq_ok_iff.mp hrun
      obtain ⟨htarget, rfl⟩ := Search.ofExcept_eq_ok_iff.mp hlookup
      cases target with
      | external specifier =>
          refine ih (fun other hother => ?_) hothers hrun
          cases fallback with
          | none =>
              obtain rfl := Option.some.inj hother
              exact hfaithful.external_of_target hmodule hsource htarget
          | some first => exact hfallback other hother
      | internal dependency =>
          have himports :=
            hfaithful.imports_of_target hmodule hsource htarget
          obtain ⟨found, _, hsearch, hrun⟩ := Outcome.bind_eq_ok_iff.mp hrun
          cases found with
          | none => exact ih hfallback hothers hrun
          | some binding =>
              obtain ⟨rfl, _⟩ := Outcome.pure_eq_ok_iff.mp hrun
              exact .of_imports himports
                (hfind himports (Search.orMissing_eq_ok hsearch))

end Follow

/-- An export leads to something that its module reaches. -/
theorem searchExport_leadsTo (hfaithful : loader.IsFaithful) (steps : Nat)
    {importer : Path} (hmodule : loader.module module.path = .ok module)
    (hrun : loader.searchExport steps module name importer before =
      .ok binding after) :
    loader.LeadsTo module binding := by
  induction steps generalizing module name importer before after binding with
  | zero => exact absurd hrun Outcome.throw_ne_ok
  | succ steps ih =>
      rw [searchExport] at hrun
      obtain ⟨_, _, _, hrun⟩ := Outcome.bind_eq_ok_iff.mp hrun
      split at hrun
      · exact absurd hrun Outcome.throw_ne_ok
      · obtain ⟨_, _, _, hrun⟩ := Outcome.bind_eq_ok_iff.mp hrun
        have hfind : ∀ {dependency : Module},
            loader.Imports module dependency →
            ∀ {exported : String} {importer : Path}
              {before after : List (Path × String)} {binding : Binding},
              loader.searchExport steps dependency exported importer before =
                .ok binding after → loader.LeadsTo dependency binding :=
          fun himports _ _ _ _ _ hfound =>
            ih (hfaithful.module_of_imports himports) hfound
        cases hexported : module.exports.get? name with
        | some exported =>
            simp only [hexported] at hrun
            refine followName_leadsTo hfaithful hmodule
              (fun himports _ _ _ _ hfound => hfind himports hfound) ?_ hrun
            cases hlocal : module.imports.contains exported.localName with
            | true => exact .inl rfl
            | false =>
                exact .inr (Module.exists_definition_of_export hfaithful hmodule
                  hexported hlocal)
        | none =>
            simp only [hexported] at hrun
            split at hrun
            · exact absurd hrun Outcome.throw_ne_ok
            · exact searchStars_leadsTo hfaithful hmodule
                (fun himports _ _ _ hfound => hfind himports hfound)
                (by simp) (hfaithful.isSourced hmodule).1.stars hrun

theorem resolveExport_leadsTo (hfaithful : loader.IsFaithful)
    {importer : Path} (hmodule : loader.module module.path = .ok module)
    (hresolve : loader.resolveExport module name importer = .ok binding) :
    loader.LeadsTo module binding := by
  obtain ⟨_, hrun⟩ := Search.outcome_eq_ok hresolve
  exact searchExport_leadsTo hfaithful _ hmodule hrun

/-- An import leads to something that its module reaches. -/
theorem resolveName_leadsTo (hfaithful : loader.IsFaithful)
    (hmodule : loader.module module.path = .ok module)
    (himport : module.imports.contains name = true)
    (hresolve : loader.resolveName module name = .ok binding) :
    loader.LeadsTo module binding := by
  obtain ⟨_, hrun⟩ := Search.outcome_eq_ok hresolve
  exact followName_leadsTo hfaithful hmodule
    (fun himports _ _ _ _ hfound => searchExport_leadsTo hfaithful _
      (hfaithful.module_of_imports himports) hfound) (.inl himport) hrun

end Loader

end Bundler
