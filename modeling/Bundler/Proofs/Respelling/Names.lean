import Bundler.Build.Deconflict
import Bundler.Proofs.Respelling.Basic

/-!
# Names under other spellings

What modules are written as is kept by their paths.  Under other paths the same
names are suggested, wanted and given away in the same order, since nothing
looks at how a path is spelt.
-/

namespace Bundler

namespace NameMap

variable {α β : Type} {onKey : String → String} {onValue : α → β}
  {map : NameMap α}

/-- A map with its names and values changed. -/
def change (onKey : String → String) (onValue : α → β) (map : NameMap α) :
    NameMap β :=
  ⟨map.entries.map fun entry => (onKey entry.1, onValue entry.2)⟩

variable (honKey : Function.Injective onKey)
include honKey

theorem get?_change (name : String) :
    (map.change onKey onValue).get? (onKey name) =
      (map.get? name).map onValue := by
  simp only [get?, change]
  induction map.entries with
  | nil => rfl
  | cons entry entries ih =>
      simp only [List.map_cons, lookup, honKey.eq_iff, ih]
      split <;> rfl

theorem insert_change (name : String) (value : α) :
    (map.change onKey onValue).insert (onKey name) (onValue value) =
      (map.insert name value).change onKey onValue := by
  simp only [insert, change, mk.injEq]
  induction map.entries with
  | nil => rfl
  | cons entry entries ih =>
      simp only [List.map_cons, put, honKey.eq_iff, ih]
      split <;> rfl

end NameMap

/-- A value is new to a list if its image is new to the image of the list. -/
theorem pushNew_map {α β : Type} [DecidableEq α] [DecidableEq β] {f : α → β}
    (hinjective : Function.Injective f) (values : List α) (value : α) :
    pushNew (values.map f) (f value) = (pushNew values value).map f := by
  simp only [pushNew, List.mem_map_of_injective hinjective]
  split <;> simp

variable (respelling : Respelling)

namespace Respelling

/-- The text of a path after a change of spelling. -/
def text (text : String) : String := (respelling.spell ⟨text⟩).text

theorem text_injective : Function.Injective respelling.text := by
  intro left right heq
  have hpaths : respelling.spell ⟨left⟩ = respelling.spell ⟨right⟩ := by
    rw [Path.mk.injEq]
    exact heq
  exact congrArg Path.text (respelling.injective hpaths)

theorem stem_spell (path : Path) : (respelling.spell path).stem = path.stem := by
  simp only [Path.stem, Path.fileName?, respelling.parts_spell]

theorem stemName_respell (module : Module) :
    (module.respell respelling).stemName = module.stemName :=
  congrArg Identifier.ofText (respelling.stem_spell module.path)

end Respelling

/-- Names kept by the other paths. -/
def Names.respell (names : Names) : Names :=
  ⟨names.modules.change respelling.text fun own => own, names.externals⟩

namespace Names

variable {respelling} {names : Names} (module : Path)

@[simp]
theorem ofModule_respell :
    (names.respell respelling).ofModule (respelling.spell module) =
      names.ofModule module := by
  have hget : (names.respell respelling).modules.get?
      (respelling.text module.text) =
        (names.modules.get? module.text).map fun own => own :=
    NameMap.get?_change respelling.text_injective module.text
  rw [Option.map_id'] at hget
  rw [ofModule, ofModule, ← hget]
  rfl

@[simp]
theorem setModule_respell (own : ModuleNames) :
    (names.respell respelling).setModule (respelling.spell module) own =
      (names.setModule module own).respell respelling := by
  have hinsert : (names.modules.change respelling.text fun own => own).insert
      (respelling.text module.text) own =
        (names.modules.insert module.text own).change respelling.text
          fun own => own :=
    NameMap.insert_change respelling.text_injective module.text own
  exact congrArg (Names.mk · names.externals) hinsert

@[simp]
theorem written_respell (name : String) :
    (names.respell respelling).written (respelling.spell module) name =
      names.written module name := by
  rw [written, ofModule_respell, written]

@[simp]
theorem suggest_respell (slot candidate : String) :
    (names.respell respelling).suggest (respelling.spell module) slot
      candidate = (names.suggest module slot candidate).respell respelling := by
  simp only [suggest, ofModule_respell, setModule_respell]

@[simp]
theorem rename_respell (name replacement : String) :
    (names.respell respelling).rename (respelling.spell module) name
      replacement = (names.rename module name replacement).respell
        respelling := by
  simp only [rename, ofModule_respell, setModule_respell]

@[simp]
theorem renames_respell :
    (names.respell respelling).renames (respelling.spell module) =
      names.renames module := by
  rw [renames, ofModule_respell, renames]

theorem nameSlot_respell (module : Module) (slot : String) :
    ((names.respell respelling).nameSlot (module.respell respelling) slot).2 =
      (names.nameSlot module slot).2.respell respelling := by
  have hsuggested : (names.respell respelling).suggested?
      (respelling.spell module.path) slot =
        names.suggested? module.path slot := by
    rw [suggested?, ofModule_respell, suggested?]
  have hbound : (module.respell respelling).boundNames =
    module.boundNames := rfl
  simp only [nameSlot, hbound, Respelling.stemName_respell]
  rw [show (module.respell respelling).path =
    respelling.spell module.path from rfl, hsuggested, rename_respell]

@[simp]
theorem expression_respell (binding : Binding) :
    (names.respell respelling).expression (binding.respell respelling) =
      names.expression binding := by
  cases binding with
  | definition module name => exact written_respell module name
  | exportsOf module => exact written_respell module namespaceSlot
  | external specifier name => cases name <;> rfl

end Names

section Settling

def Occupant.respell : Occupant → Occupant
  | .binding module name => .binding (respelling.spell module) name
  | .external specifier => .external specifier
  | .unknown => .unknown

theorem Occupant.respell_injective :
    Function.Injective (Occupant.respell respelling) := by
  intro left right heq
  cases left <;> cases right <;> simp_all [Occupant.respell]

def Occupancy.respell (occupancy : Occupancy) : Occupancy :=
  occupancy.change (fun name => name) (List.map (Occupant.respell respelling))

theorem Occupancy.occupy_respell (occupancy : Occupancy) (name : String)
    (occupant : Occupant) :
    (occupancy.respell respelling).occupy name (occupant.respell respelling) =
      (occupancy.occupy name occupant).respell respelling := by
  have hname : Function.Injective fun name : String => name :=
    fun _ _ heq => heq
  have hold : ((occupancy.respell respelling).get? name).getD [] =
      ((occupancy.get? name).getD []).map (Occupant.respell respelling) := by
    have hget : (occupancy.respell respelling).get? name =
        (occupancy.get? name).map (List.map (Occupant.respell respelling)) :=
      NameMap.get?_change hname name
    rw [hget]
    cases occupancy.get? name <;> rfl
  rw [occupy, hold, pushNew_map (Occupant.respell_injective respelling)]
  exact NameMap.insert_change hname name _

def NameContext.respell (context : NameContext) : NameContext :=
  { modules := context.modules.map (Module.respell respelling)
    statements := context.statements.map fun included =>
      (included.1.respell respelling, included.2)
    namespaces := context.namespaces.map respelling.spell
    externals := context.externals }

def Settling.respell (settling : Settling) : Settling :=
  ⟨settling.names.respell respelling, settling.occupancy.respell respelling⟩

namespace Settling

variable {respelling} (settling : Settling)

theorem nameSlot_respell (module : Module) (slot : String) :
    (settling.respell respelling).nameSlot (module.respell respelling) slot =
      (settling.nameSlot module slot).respell respelling :=
  congrArg (Settling.mk · _) (Names.nameSlot_respell module slot)

theorem occupyName_respell (module : Module) (name : String) :
    (settling.respell respelling).occupyName (module.respell respelling) name =
      (settling.occupyName module name).respell respelling := by
  have hwritten : (settling.names.respell respelling).written
      (respelling.spell module.path) name =
        settling.names.written module.path name := Names.written_respell _ name
  refine congrArg (Settling.mk _) (.trans ?_
    (settling.occupancy.occupy_respell respelling _ (.binding module.path name)))
  exact congrArg (Occupancy.occupy _ · _) hwritten

theorem addDefinition_respell (module : Module) (name : String) :
    (settling.respell respelling).addDefinition (module.respell respelling)
      name = (settling.addDefinition module name).respell respelling := by
  rw [addDefinition, addDefinition]
  split
  · rw [nameSlot_respell, occupyName_respell]
  · exact settling.occupyName_respell module name

theorem addModule_respell (context : NameContext) (module : Module) :
    addModule (context.respell respelling) (settling.respell respelling)
      (module.respell respelling) =
        (addModule context settling module).respell respelling := by
  have hown : (context.respell respelling).statements.filter
      (·.1.path = (module.respell respelling).path) =
        (context.statements.filter (·.1.path = module.path)).map
          fun included => (included.1.respell respelling, included.2) := by
    rw [NameContext.respell, List.filter_map]
    congr 2
    funext included
    simp [Module.respell]
  have hused : (context.respell respelling).namespaces.contains
      (module.respell respelling).path =
        context.namespaces.contains module.path := by
    rw [Bool.eq_iff_iff, List.contains_iff_mem, List.contains_iff_mem]
    exact List.mem_map_of_injective respelling.injective
  rw [addModule, addModule, hown, hused, List.flatMap_map]
  dsimp only
  rw [List.foldl_hom (Settling.respell respelling)
    fun settling name => settling.addDefinition_respell module name]
  split
  · rw [nameSlot_respell, occupyName_respell]
  · rfl

theorem addExternal_respell (specifier : String) :
    (settling.respell respelling).addExternal specifier =
      (settling.addExternal specifier).respell respelling :=
  congrArg (Settling.mk _)
    (settling.occupancy.occupy_respell respelling _ (.external specifier))

theorem addUnknown_respell (included : Module × Statement) :
    (settling.respell respelling).addUnknown
      (included.1.respell respelling, included.2) =
        (settling.addUnknown included).respell respelling :=
  congrArg (Settling.mk _) (List.foldl_hom (Occupancy.respell respelling)
    fun occupancy name => occupancy.occupy_respell respelling name .unknown)

theorem collect_respell (context : NameContext) (names : Names) :
    collect (context.respell respelling) (names.respell respelling) =
      (collect context names).respell respelling := by
  have hstart : (⟨names.respell respelling, .empty⟩ : Settling) =
    Settling.respell respelling ⟨names, .empty⟩ := rfl
  have hmodules : (context.respell respelling).modules =
    context.modules.map (Module.respell respelling) := rfl
  have hstatements : (context.respell respelling).statements =
    context.statements.map fun included =>
      (included.1.respell respelling, included.2) := rfl
  rw [collect, collect, hstart, hmodules, hstatements, List.foldl_map,
    List.foldl_map]
  rw [List.foldl_hom (Settling.respell respelling)
      fun settling module => settling.addModule_respell context module,
    List.foldl_hom (Settling.respell respelling)
      fun settling specifier => settling.addExternal_respell specifier,
    List.foldl_hom (Settling.respell respelling)
      fun settling included => settling.addUnknown_respell included]
  rfl

end Settling

def Renaming.respell (state : Renaming) : Renaming :=
  ⟨state.names.respell respelling, state.taken⟩

namespace Renaming

variable {respelling} (state : Renaming)

theorem rename_respell (wanted : String) (occupant : Occupant) :
    rename wanted (state.respell respelling) (occupant.respell respelling) =
      (rename wanted state occupant).respell respelling := by
  cases occupant with
  | binding module name =>
      exact congrArg (Renaming.mk · _) (Names.rename_respell module name _)
  | external specifier => rfl
  | unknown => rfl

theorem renameOthers_respell (wanted : String × List Occupant) :
    (state.respell respelling).renameOthers
      (wanted.1, wanted.2.map (Occupant.respell respelling)) =
        (state.renameOthers wanted).respell respelling := by
  rw [renameOthers, renameOthers, ← List.map_dropLast, List.foldl_map]
  exact List.foldl_hom (Renaming.respell respelling)
    fun state occupant => state.rename_respell wanted.1 occupant

end Renaming

/-- Conflicts are settled in the same way. -/
theorem Names.deconflict_respell {respelling : Respelling}
    (context : NameContext) (names : Names) :
    (names.respell respelling).deconflict (context.respell respelling) =
      (names.deconflict context).respell respelling := by
  have hnested : (context.respell respelling).modules.flatMap
      (·.tree.nestedNames) = context.modules.flatMap (·.tree.nestedNames) :=
    List.flatMap_map ..
  have hentries : ∀ occupancy : Occupancy,
      (occupancy.respell respelling).entries = occupancy.entries.map
        fun wanted => (wanted.1, wanted.2.map (Occupant.respell respelling)) :=
    fun _ => rfl
  have hkeys : ∀ occupancy : Occupancy,
      (occupancy.respell respelling).keys = occupancy.keys := by
    intro occupancy
    rw [NameMap.keys, hentries, List.map_map]
    rfl
  have hrenames : ∀ (entries : List (String × List Occupant))
      (state : Renaming), entries.foldl (fun state wanted =>
        state.renameOthers
          (wanted.1, wanted.2.map (Occupant.respell respelling)))
        (state.respell respelling) =
          (entries.foldl Renaming.renameOthers state).respell respelling :=
    fun entries state => List.foldl_hom (Renaming.respell respelling)
      fun state wanted => state.renameOthers_respell wanted
  rw [deconflict, deconflict, Settling.collect_respell, hnested]
  generalize Settling.collect context names = settling
  simp only [Settling.respell, hentries, hkeys, List.foldl_map]
  exact congrArg Renaming.names (hrenames settling.occupancy.entries
    ⟨settling.names, settling.occupancy.keys ++ _⟩)

end Settling

end Bundler
