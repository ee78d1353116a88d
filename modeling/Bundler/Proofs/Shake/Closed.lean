import Bundler.Proofs.Graph.Reachable
import Mathlib.Order.Bounds.Basic

/-!
# Closed sets of statements

A need of a bundle brings others with it, whatever the order in which they are
met: a statement needs what gives the names that it reads their values and
what changes the names that it declares, and an object of exports needs what
is behind each export.  What is needed in all is the closure of what is asked
for under this relation.

A set of statements is closed if a bundle that holds just these statements
lacks nothing: it has the effects that take place in any case, what every used
binding refers to, what the statements read, and what writes the names that
they declare.  What is needed of the needs that a bundle starts from makes up
the least such set.
-/

namespace Bundler

/-! ### What follows from a need -/

namespace Shaking

variable (loader : Loader)

/-- The need that a binding refers to, if it is one of the bundle. -/
inductive Behind : Binding → Need → Prop
  | definition {path : Path} {name : String} {module : Module} {id : Nat} :
      loader.module path = .ok module →
      module.definitions.get? name = some id →
      Behind (.definition path name) (.statement module.path id)
  | exportsOf {path : Path} : Behind (.exportsOf path) (.exportsOf path)

/-- The need that gives a name its value in a module.  An import hides a
definition of the same name. -/
inductive Gives (module : Module) (name : String) : Need → Prop
  | definition {id : Nat} :
      module.imports.contains name = false →
      module.definitions.get? name = some id →
      Gives module name (.statement module.path id)
  | imported {binding : Binding} {need : Need} :
      module.imports.contains name = true →
      loader.resolveName module name = .ok binding →
      Behind loader binding need →
      Gives module name need

/-- What a module exports under a name. -/
def Offers (path : Path) (exported : String) (binding : Binding) : Prop :=
  ∃ module names, loader.module path = .ok module ∧
    loader.exportNames module = .ok names ∧ exported ∈ names ∧
    loader.resolveExport module exported path = .ok binding

/-- Every import that a statement reads leads to something. -/
def Finds (statement : StatementId) : Prop :=
  ∀ {module : Module} {content : Statement} {name : String},
    loader.module statement.1 = .ok module →
    module.statements[statement.2]? = some content →
    name ∈ content.dependsOn →
    module.imports.contains name = true →
    ∃ binding, loader.resolveName module name = .ok binding

/-- The needs that a need brings with it at once. -/
inductive Follows : Need → Need → Prop
  | reads {path : Path} {id : Nat} {module : Module} {statement : Statement}
      {name : String} {need : Need} :
      loader.module path = .ok module →
      module.statements[id]? = some statement →
      name ∈ statement.dependsOn →
      Gives loader module name need →
      Follows (.statement path id) need
  | writes {path : Path} {id : Nat} {module : Module} {statement : Statement}
      {name : String} {writer : Nat} :
      loader.module path = .ok module →
      module.statements[id]? = some statement →
      name ∈ statement.defines →
      writer ∈ (module.modifications.get? name).getD [] →
      Follows (.statement path id) (.statement module.path writer)
  | exports {path : Path} {module : Module} {names : List String}
      {name : String} {binding : Binding} {need : Need} :
      loader.module path = .ok module →
      loader.exportNames module = .ok names →
      name ∈ names →
      loader.resolveExport module name path = .ok binding →
      Behind loader binding need →
      Follows (.exportsOf path) need

/-- All that is needed if some needs are to be met. -/
inductive Needed (asked : Need → Prop) : Need → Prop
  | asked {need : Need} : asked need → Needed asked need
  | follows {need next : Need} :
      Needed asked need → Follows loader need next → Needed asked next

namespace Needed

variable {loader} {asked other : Need → Prop} {need : Need}

/-- What is needed for needed things is needed. -/
theorem trans (hother : ∀ need, asked need → Needed loader other need)
    (hneed : Needed loader asked need) : Needed loader other need := by
  induction hneed with
  | asked hasked => exact hother _ hasked
  | follows _ hfollows ih => exact .follows ih hfollows

theorem mono (hother : ∀ need, asked need → other need)
    (hneed : Needed loader asked need) : Needed loader other need :=
  hneed.trans fun need hasked => .asked (hother need hasked)

/-- What is needed for what follows from a need is needed for that need. -/
theorem of_follows {first : Need}
    (hneed : Needed loader (Follows loader first) need) :
    Needed loader (· = first) need :=
  hneed.trans fun _ hfollows => .follows (.asked rfl) hfollows

end Needed

/-- A need that there can be: a statement is one of its module. -/
inductive Exists : Need → Prop
  | statement {module : Module} {id : Nat} :
      loader.module module.path = .ok module →
      id < module.statements.length →
      Exists (.statement module.path id)
  | exportsOf {path : Path} : Exists (.exportsOf path)

/-- The module of a statement that there can be has the path that is named, and
has the statement. -/
theorem Exists.of_statement {loader : Loader} {path : Path} {id : Nat}
    {module : Module} (hexists : Exists loader (.statement path id))
    (hmodule : loader.module path = .ok module) :
    module.path = path ∧ id < module.statements.length := by
  cases hexists with
  | statement hother hid =>
      rw [hmodule] at hother
      obtain rfl := Except.ok.inj hother
      exact ⟨rfl, hid⟩

section Exists

variable {loader} (hfaithful : loader.IsFaithful) {path : Path}
  {module : Module}
include hfaithful

theorem exists_of_definition {name : String} {id : Nat}
    (hmodule : loader.module path = .ok module)
    (hdefinition : module.definitions.get? name = some id) :
    Exists loader (.statement module.path id) := by
  obtain ⟨statement, hstatement, _⟩ :=
    (hfaithful.hasTables hmodule).get?_definitions_eq_some_iff.mp hdefinition
  exact .statement (hfaithful.module_path hmodule)
    (List.getElem?_eq_some_iff.mp hstatement).1

theorem exists_of_modification {name : String} {writer : Nat}
    (hmodule : loader.module path = .ok module)
    (hwriter : writer ∈ (module.modifications.get? name).getD []) :
    Exists loader (.statement module.path writer) := by
  obtain ⟨statement, hstatement, _⟩ :=
    (hfaithful.hasTables hmodule).mem_modifications_iff.mp hwriter
  exact .statement (hfaithful.module_path hmodule)
    (List.getElem?_eq_some_iff.mp hstatement).1

theorem Behind.exists {binding : Binding} {need : Need}
    (hbehind : Behind loader binding need) : Exists loader need := by
  cases hbehind with
  | definition hmodule hdefinition =>
      exact exists_of_definition hfaithful hmodule hdefinition
  | exportsOf => exact .exportsOf

end Exists

end Shaking

/-! ### Closed sets -/

namespace Shaking

variable (loader : Loader) (entry : Module) (requested : Option (List String))

/-- A module imports another one for its effects alone. -/
def IsBareTarget (module dependency : Module) : Prop :=
  ∃ statement ∈ module.statements, ∃ source,
    statement.kind = .importing source true ∧
      loader.target module source = .ok (.internal dependency)

/-- The modules whose effects take place: the entry module, and what is imported
for its effects alone by one of them. -/
inductive IsSeeded : Module → Prop
  | entry : IsSeeded entry
  | bare {module dependency : Module} :
      IsSeeded module → IsBareTarget loader module dependency →
      IsSeeded dependency

/-- A statement of a module that must run whether it is used or not. -/
def HasEffect (module : Module) (id : Nat) : Prop :=
  ∃ statement, module.statements[id]? = some statement ∧
    statement.kind.isModuleSyntax = false ∧ statement.isRemovable = false

/-- The exports of the entry module to keep: the requested ones, or all. -/
def IsRequested (name : String) : Prop :=
  match requested with
  | some names => name ∈ names
  | none => ∃ names, loader.exportNames entry = .ok names ∧ name ∈ names

/-- The statement that defines what a binding refers to. -/
def IsDefiner (binding : Binding) (definer : StatementId) : Prop :=
  ∃ path name module, binding = .definition path name ∧
    loader.module path = .ok module ∧ definer.1 = module.path ∧
    module.definitions.get? name = some definer.2

/-- The bindings that are used when the statements of a set are kept. -/
inductive IsUsed (kept : Set StatementId) : Binding → Prop
  | requested {name : String} {binding : Binding} :
      IsRequested loader entry requested name →
      loader.resolveExport entry name entry.path = .ok binding →
      IsUsed kept binding
  | imported {path : Path} {id : Nat} {module : Module}
      {statement : Statement} {name : String} {binding : Binding} :
      (path, id) ∈ kept →
      loader.module path = .ok module →
      module.statements[id]? = some statement →
      name ∈ statement.dependsOn →
      module.imports.contains name = true →
      loader.resolveName module name = .ok binding →
      IsUsed kept binding
  | exported {path : Path} {module : Module} {names : List String}
      {name : String} {binding : Binding} :
      IsUsed kept (.exportsOf path) →
      loader.module path = .ok module →
      loader.exportNames module = .ok names →
      name ∈ names →
      loader.resolveExport module name path = .ok binding →
      IsUsed kept binding

/-- A set of statements that lacks nothing. -/
structure IsClosed (kept : Set StatementId) : Prop where
  seeds : ∀ {module : Module} {id : Nat}, IsSeeded loader entry module →
    HasEffect module id → (module.path, id) ∈ kept
  uses : ∀ {binding : Binding} {definer : StatementId},
    IsUsed loader entry requested kept binding →
    IsDefiner loader binding definer → definer ∈ kept
  reads : ∀ {path : Path} {id : Nat} {module : Module}
    {statement : Statement} {name : String} {definer : Nat},
    (path, id) ∈ kept →
    loader.module path = .ok module →
    module.statements[id]? = some statement →
    name ∈ statement.dependsOn →
    module.imports.contains name = false →
    module.definitions.get? name = some definer →
    (module.path, definer) ∈ kept
  writes : ∀ {path : Path} {id : Nat} {module : Module}
    {statement : Statement} {name : String} {writer : Nat},
    (path, id) ∈ kept →
    loader.module path = .ok module →
    module.statements[id]? = some statement →
    name ∈ statement.defines →
    writer ∈ (module.modifications.get? name).getD [] →
    (module.path, writer) ∈ kept

/-- The needs that a bundle starts from. -/
inductive Asked : Need → Prop
  | effect {module : Module} {id : Nat} :
      IsSeeded loader entry module → HasEffect module id →
      Asked (.statement module.path id)
  | kept {name : String} {binding : Binding} {need : Need} :
      IsRequested loader entry requested name →
      loader.resolveExport entry name entry.path = .ok binding →
      Behind loader binding need →
      Asked need

section Least

variable {loader entry requested}

theorem isDefiner_iff {binding : Binding} {definer : StatementId} :
    IsDefiner loader binding definer ↔
      Behind loader binding (.statement definer.1 definer.2) := by
  constructor
  · rintro ⟨path, name, module, rfl, hmodule, hpath, hdefinition⟩
    rw [hpath]
    exact .definition hmodule hdefinition
  · intro hbehind
    generalize hneed : Need.statement definer.1 definer.2 = need at hbehind
    cases hbehind with
    | definition hmodule hdefinition =>
        obtain ⟨hpath, hid⟩ := Need.statement.inj hneed
        exact ⟨_, _, _, rfl, hmodule, hpath, hid ▸ hdefinition⟩
    | exportsOf => exact absurd hneed (by simp)

/-- The statements that are needed. -/
def neededStatements (loader : Loader) (asked : Need → Prop) :
    Set StatementId :=
  {statement | Needed loader asked (.statement statement.1 statement.2)}

/-- What is behind a binding that is used by needed statements is needed. -/
theorem IsUsed.needed {binding : Binding} {need : Need}
    (hused : IsUsed loader entry requested
      (neededStatements loader (Asked loader entry requested)) binding)
    (hbehind : Behind loader binding need) :
    Needed loader (Asked loader entry requested) need := by
  induction hused generalizing need with
  | requested hrequested hresolve =>
      exact .asked (.kept hrequested hresolve hbehind)
  | imported hkept hmodule hstatement hname himport hresolve =>
      exact .follows hkept
        (.reads hmodule hstatement hname (.imported himport hresolve hbehind))
  | exported _ hmodule hnames hname hresolve ih =>
      exact .follows (ih .exportsOf)
        (.exports hmodule hnames hname hresolve hbehind)

theorem isClosed_neededStatements :
    IsClosed loader entry requested
      (neededStatements loader (Asked loader entry requested)) where
  seeds hseeded heffect := .asked (.effect hseeded heffect)
  uses hused hdefiner := hused.needed (isDefiner_iff.mp hdefiner)
  reads hkept hmodule hstatement hname himport hdefinition :=
    .follows hkept
      (.reads hmodule hstatement hname (.definition himport hdefinition))
  writes hkept hmodule hstatement hname hwriter :=
    .follows hkept (.writes hmodule hstatement hname hwriter)

/-- A need that is met if the statements of a set are kept. -/
def MetBy (loader : Loader) (entry : Module)
    (requested : Option (List String)) (kept : Set StatementId) : Need → Prop
  | .statement path id => (path, id) ∈ kept
  | .exportsOf path => IsUsed loader entry requested kept (.exportsOf path)

/-- Closed sets meet what is behind the bindings that they use. -/
theorem IsClosed.metBy_of_behind {kept : Set StatementId} {binding : Binding}
    {need : Need} (hclosed : IsClosed loader entry requested kept)
    (hused : IsUsed loader entry requested kept binding)
    (hbehind : Behind loader binding need) :
    MetBy loader entry requested kept need := by
  cases need with
  | statement path id =>
      exact hclosed.uses hused (isDefiner_iff.mpr hbehind)
  | exportsOf path =>
      cases hbehind
      exact hused

theorem IsClosed.metBy_of_needed {kept : Set StatementId} {need : Need}
    (hclosed : IsClosed loader entry requested kept)
    (hneed : Needed loader (Asked loader entry requested) need) :
    MetBy loader entry requested kept need := by
  induction hneed with
  | asked hasked =>
      cases hasked with
      | effect hseeded heffect => exact hclosed.seeds hseeded heffect
      | kept hrequested hresolve hbehind =>
          exact hclosed.metBy_of_behind (.requested hrequested hresolve)
            hbehind
  | follows _ hfollows ih =>
      cases hfollows with
      | reads hmodule hstatement hname hgives =>
          cases hgives with
          | definition himport hdefinition =>
              exact hclosed.reads ih hmodule hstatement hname himport
                hdefinition
          | imported himport hresolve hbehind =>
              exact hclosed.metBy_of_behind
                (.imported ih hmodule hstatement hname himport hresolve)
                hbehind
      | writes hmodule hstatement hname hwriter =>
          exact hclosed.writes ih hmodule hstatement hname hwriter
      | exports hmodule hnames hname hresolve hbehind =>
          exact hclosed.metBy_of_behind
            (.exported ih hmodule hnames hname hresolve) hbehind

/-- The needed statements are the least closed set. -/
theorem isLeast_neededStatements :
    IsLeast {kept | IsClosed loader entry requested kept}
      (neededStatements loader (Asked loader entry requested)) := by
  refine ⟨isClosed_neededStatements, fun kept hclosed => ?_⟩
  intro statement hneeded
  exact IsClosed.metBy_of_needed hclosed hneeded

end Least

end Shaking

end Bundler
