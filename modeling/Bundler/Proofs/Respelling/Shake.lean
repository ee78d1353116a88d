import Bundler.Proofs.Respelling.Link
import Bundler.Proofs.Respelling.Names

/-!
# Shaking under other spellings

Shaking keeps what it has met by the paths of modules and compares these paths
with each other only, so under other paths it meets the same statements in the
same order.
-/

namespace Bundler

variable (respelling : Respelling)

def Need.respell : Need → Need
  | .statement module id => .statement (respelling.spell module) id
  | .exportsOf module => .exportsOf (respelling.spell module)

/-- A numbered statement under the other path of its module. -/
def StatementId.respell (statement : StatementId) : StatementId :=
  (respelling.spell statement.1, statement.2)

/-- An export of a module with what it refers to under the other paths. -/
def respellExport (exported : String × Binding) : String × Binding :=
  (exported.1, exported.2.respell respelling)

/-- An object of exports under the other paths. -/
def respellObject (object : Path × List (String × Binding)) :
    Path × List (String × Binding) :=
  (respelling.spell object.1, object.2.map (respellExport respelling))

/-- What an import was found to refer to under the other paths. -/
def respellFound (found : (Path × String) × Binding) :
    (Path × String) × Binding :=
  ((respelling.spell found.1.1, found.1.2), found.2.respell respelling)

def Shaker.respell (shaker : Shaker) : Shaker :=
  { started := shaker.started.map (StatementId.respell respelling)
    included := shaker.included.map (StatementId.respell respelling)
    namespaces := shaker.namespaces.map (respellObject respelling)
    seeded := shaker.seeded.map respelling.spell
    bindings := shaker.bindings.map (respellFound respelling)
    names := shaker.names.respell respelling }

variable {respelling}

theorem Shaker.respell_ofNames_initial :
    (Shaker.ofNames .initial).respell respelling = .ofNames .initial :=
  rfl

theorem StatementId.respell_injective :
    Function.Injective (StatementId.respell respelling) := by
  rintro ⟨left, id⟩ ⟨right, other⟩ heq
  simpa [StatementId.respell] using heq

theorem find?_respellFound (bindings : List ((Path × String) × Binding))
    (module : Path) (name : String) :
    (bindings.map (respellFound respelling)).find?
      (·.1 = (respelling.spell module, name)) =
        (bindings.find? (·.1 = (module, name))).map
          (respellFound respelling) := by
  rw [List.find?_map]
  congr 2
  funext found
  apply decide_eq_decide.mpr
  simp [respellFound, Prod.ext_iff]

namespace Shaker

variable (shaker : Shaker)

theorem binding?_respell (module : Path) (name : String) :
    (shaker.respell respelling).binding? (respelling.spell module) name =
      (shaker.binding? module name).map (Binding.respell respelling) := by
  rw [binding?, respell, find?_respellFound, Option.map_map, binding?,
    Option.map_map]
  rfl

theorem addExport_respell (module : Path) (name : String)
    (binding : Binding) :
    (shaker.respell respelling).addExport (respelling.spell module) name
      (binding.respell respelling) =
        (shaker.addExport module name binding).respell respelling := by
  simp only [addExport, respell, List.map_map, mk.injEq, true_and, and_true]
  apply List.map_congr_left
  intro object _
  simp only [Function.comp_apply, respellObject, respelling.spell_inj]
  split
  · simp [respellExport]
  · rfl

end Shaker

namespace Shaking

variable {α β : Type} {onValue : α → β} {loader other : Loader}

/-- A shaking operation among modules that are known by other paths. -/
def Respells (respelling : Respelling) (onValue : α → β)
    (operation : Shaking α) (mirror : Shaking β) : Prop :=
  Outcome.Mirrors (Shaker.respell respelling)
    (LinkFailure.respell respelling) onValue operation mirror

theorem ofExcept_respells {outcome : Except LinkFailure α}
    {image : Except LinkFailure β}
    (himage : image =
      Except.change (LinkFailure.respell respelling) onValue outcome) :
    Respells respelling onValue (ofExcept outcome) (ofExcept image) := by
  rw [himage]
  cases outcome with
  | ok value => exact .pure value
  | error failure => exact .throw failure

section Operations

variable (hrespells : loader.Respells respelling other)
include hrespells

theorem suggestName_respells (module : Module) (name : String) :
    Respells respelling (fun value => value) (suggestName loader module name)
      (suggestName other (module.respell respelling) name) := by
  have himports : (module.respell respelling).imports = module.imports := rfl
  rw [suggestName, suggestName, himports]
  cases module.imports.get? name with
  | none => exact .pure _
  | some imported =>
      dsimp only
      split
      · exact .pure _
      · cases slot? imported.name with
        | none => exact .pure _
        | some slot =>
            refine .bind (ofExcept_respells
              (hrespells.target module imported.source)) fun target => ?_
            cases target with
            | internal dependency =>
                refine .modify fun shaker => ?_
                simp only [Shaker.respell, Module.respell,
                  Names.suggest_respell]
            | external specifier => exact .modify fun shaker => rfl

theorem importBinding_respells (module : Module) (name : String) :
    Respells respelling (Binding.respell respelling)
      (importBinding loader module name)
      (importBinding other (module.respell respelling) name) := by
  rw [importBinding, importBinding]
  refine .bind .get fun shaker => ?_
  rw [show (module.respell respelling).path =
    respelling.spell module.path from rfl, Shaker.binding?_respell]
  cases shaker.binding? module.path name with
  | some binding => exact .pure binding
  | none =>
      refine .bind (ofExcept_respells (hrespells.resolveName module name))
        fun binding => ?_
      exact .bind (suggestName_respells hrespells module name) fun _ =>
        .bind (.modify fun _ => rfl) fun _ => .pure binding

section Meeting

variable {meet mirror : Need → Shaking Unit}
  (hmeet : ∀ need, Respells respelling (fun value => value) (meet need)
    (mirror (need.respell respelling)))
include hmeet

omit hrespells in
theorem includeDefinition_respells (module : Module) (name : String) :
    Respells respelling (fun value => value)
      (includeDefinition meet module name)
      (includeDefinition mirror (module.respell respelling) name) := by
  have hdefinitions : (module.respell respelling).definitions =
    module.definitions := rfl
  rw [includeDefinition, includeDefinition, hdefinitions]
  cases module.definitions.get? name with
  | none => exact .pure _
  | some id => exact hmeet (.statement module.path id)

theorem includeBinding_respells (binding : Binding) :
    Respells respelling (fun value => value)
      (includeBinding loader meet binding)
      (includeBinding other mirror (binding.respell respelling)) := by
  cases binding with
  | definition path name =>
      exact .bind (ofExcept_respells (hrespells.module_spell path))
        fun module => includeDefinition_respells hmeet module name
  | exportsOf path => exact hmeet (.exportsOf path)
  | external specifier name => exact .pure _

theorem includeName_respells (module : Module) (name : String) :
    Respells respelling (fun value => value)
      (includeName loader meet module name)
      (includeName other mirror (module.respell respelling) name) := by
  have himports : (module.respell respelling).imports = module.imports := rfl
  rw [includeName, includeName, himports]
  split
  · exact .bind (importBinding_respells hrespells module name)
      fun binding => includeBinding_respells hrespells hmeet binding
  · exact includeDefinition_respells hmeet module name

theorem includeStatement_respells (path : Path) (id : Nat) :
    Respells respelling (fun value => value)
      (includeStatement loader meet path id)
      (includeStatement other mirror (respelling.spell path) id) := by
  rw [includeStatement, includeStatement]
  refine .bind .get fun shaker => ?_
  have hmet : (shaker.respell respelling).started.contains
      (respelling.spell path, id) = shaker.started.contains (path, id) := by
    rw [Bool.eq_iff_iff, List.contains_iff_mem, List.contains_iff_mem]
    exact List.mem_map_of_injective (a := (path, id))
      StatementId.respell_injective
  rw [hmet]
  split
  · exact .pure _
  · refine .bind (.modify fun _ => rfl) fun _ => ?_
    refine .bind (ofExcept_respells (hrespells.module_spell path))
      fun module => ?_
    have hstatements : (module.respell respelling).statements =
      module.statements := rfl
    rw [hstatements]
    cases module.statements[id]? with
    | none => exact .pure _
    | some statement =>
        refine .bind (.forM fun name _ =>
          includeName_respells hrespells hmeet module name) fun _ => ?_
        refine .bind (.modify fun shaker => ?_) fun _ => .forM fun name _ =>
          .forM fun writer _ => hmeet (.statement path writer)
        simp only [Shaker.respell, List.map_append, List.map_singleton]
        rfl

theorem includeExports_respells (path : Path) :
    Respells respelling (fun value => value)
      (includeExports loader meet path)
      (includeExports other mirror (respelling.spell path)) := by
  rw [includeExports, includeExports]
  refine .bind .get fun shaker => ?_
  have hmet : (shaker.respell respelling).namespaces.any
      (·.1 = respelling.spell path) =
        shaker.namespaces.any (·.1 = path) := by
    rw [Shaker.respell, List.any_map]
    congr 1
    funext object
    simp [respellObject]
  rw [hmet]
  split
  · exact .pure _
  · refine .bind (.modify fun shaker => ?_) fun _ => ?_
    · simp only [Shaker.respell, List.map_append, List.map_singleton]
      rfl
    refine .bind (ofExcept_respells (hrespells.module_spell path))
      fun module => ?_
    refine .bind (ofExcept_respells (hrespells.exportNames module))
      fun names => .forM fun name _ => ?_
    refine .bind (ofExcept_respells
      (hrespells.resolveExport module name path)) fun binding => ?_
    exact .bind (includeBinding_respells hrespells hmeet binding) fun _ =>
      .modify fun shaker => shaker.addExport_respell path name binding

end Meeting

theorem meet_respells (steps : Nat) (need : Need) :
    Respells respelling (fun value => value) (meet loader steps need)
      (meet other steps (need.respell respelling)) := by
  induction steps generalizing need with
  | zero => cases need <;> exact .throw _
  | succ steps ih =>
      cases need with
      | statement path id => exact includeStatement_respells hrespells ih path id
      | exportsOf path => exact includeExports_respells hrespells ih path

/-- The bound on the needs that follow from each other is the same. -/
theorem needBound_eq : needBound other = needBound loader := by
  have hcounts := hrespells.modules.map fun module : Module =>
    module.statements.length
  rw [List.map_map] at hcounts
  have hsum := hcounts.foldr_eq (f := (· + ·)) 0
  have hlength := hrespells.modules.length_eq
  rw [List.length_map] at hlength
  rw [needBound, needBound, hsum, hlength]
  rfl

theorem seedEffects_respells (steps : Nat) (module : Module) :
    Respells respelling (fun value => value)
      (seedEffects loader steps module)
      (seedEffects other steps (module.respell respelling)) := by
  induction steps generalizing module with
  | zero => exact .throw _
  | succ steps ih =>
      have hstatements : (module.respell respelling).statements =
        module.statements := rfl
      rw [seedEffects, seedEffects, hstatements]
      refine .bind .get fun shaker => ?_
      have hmet : (shaker.respell respelling).seeded.contains
          (module.respell respelling).path =
            shaker.seeded.contains module.path := by
        rw [Bool.eq_iff_iff, List.contains_iff_mem, List.contains_iff_mem]
        exact List.mem_map_of_injective respelling.injective
      rw [hmet]
      split
      · exact .pure _
      · refine .bind (.modify fun _ => rfl) fun _ => .forM
          fun ⟨id, statement⟩ _ => ?_
        dsimp only
        split
        · exact .pure _
        · exact .pure _
        · rename_i source _
          refine .bind (ofExcept_respells (hrespells.target module source))
            fun target => ?_
          cases target with
          | internal dependency => exact ih dependency
          | external specifier => exact .pure _
        · split
          · exact .pure _
          · rw [expand, expand, needBound_eq hrespells]
            exact meet_respells hrespells _ (.statement module.path id)

theorem includeExport_respells (entry : Module) (name : String) :
    Respells respelling (Binding.respell respelling)
      (includeExport loader entry name)
      (includeExport other (entry.respell respelling) name) := by
  rw [includeExport, includeExport, needBound_eq hrespells]
  refine .bind (ofExcept_respells
    (hrespells.resolveExport entry name entry.path)) fun binding => ?_
  exact .bind (includeBinding_respells hrespells (meet_respells hrespells _)
    binding) fun _ => .pure binding

/-- Shaking includes the same statements and yields the same exports. -/
theorem shake_respells (entry : Module) (requested : Option (List String)) :
    Respells respelling (List.map (respellExport respelling))
      (shake loader entry requested)
      (shake other (entry.respell respelling) requested) := by
  have hseeds : Respells respelling (fun value => value)
      (includeEffects loader entry)
      (includeEffects other (entry.respell respelling)) := by
    rw [includeEffects, includeEffects, hrespells.length]
    exact seedEffects_respells hrespells _ entry
  have hincludes : ∀ names : List String,
      Respells respelling (List.map (respellExport respelling))
        (names.mapM fun name => do
          return (name, ← includeExport loader entry name))
        (names.mapM fun name => do
          return (name, ←
            includeExport other (entry.respell respelling) name)) :=
    fun names => .mapM fun name =>
      .bind (includeExport_respells hrespells entry name) fun _ => .pure _
  refine .bind hseeds fun _ => ?_
  cases requested with
  | some names => exact hincludes names
  | none =>
      exact .bind (ofExcept_respells (hrespells.exportNames entry)) hincludes

end Operations

end Shaking

end Bundler
