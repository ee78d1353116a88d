import Bundler.Build.Deconflict
import Bundler.Proofs.Build.Written

/-!
# Fresh names

The names that a bundle gives in place of others are bound in no function or
block of any module.  Any other name is one that its binding arrived with: a
name of the source, the name of a slot, or the name preferred for a module that
is not bundled.  These are not looked for in functions and blocks.
-/

namespace Bundler

namespace Names

/-- The names that a slot may have had at first. -/
def slotNames (names : Names) (modules : List Module) (path : Path)
    (slot : String) : List String :=
  if slot = defaultSlot ∨ slot = namespaceSlot then
    (modules.filter (·.path = path)).map fun module =>
      (names.nameSlot module slot).1
  else []

/-- The names that a binding may have had before conflicts were settled. -/
def arriving (names : Names) (modules : List Module) : Binding → List String
  | .definition path name => name :: names.slotNames modules path name
  | .exportsOf path =>
      namespaceSlot :: names.slotNames modules path namespaceSlot
  | .external specifier _ =>
      [names.preferredExternal specifier, Identifier.ofText specifier]

/-- The name that the expression for a binding starts with. -/
def leading (names : Names) : Binding → String
  | .definition path name => names.written path name
  | .exportsOf path => names.written path namespaceSlot
  | .external specifier _ => names.writtenExternal specifier

/-- The expression for a binding is a name, perhaps with an access to a member
behind it. -/
theorem expression_eq (names : Names) (binding : Binding) :
    ∃ rest, names.expression binding = names.leading binding ++ rest ∧
      (rest = "" ∨ rest.toList.head? = some '.' ∨
        rest.toList.head? = some '[') := by
  have hnone : ∀ text : String, text = text ++ "" := fun text =>
    (String.append_empty).symm
  cases binding with
  | definition path name => exact ⟨"", hnone _, .inl rfl⟩
  | exportsOf path => exact ⟨"", hnone _, .inl rfl⟩
  | external specifier imported =>
      cases imported with
      | defaultExport => exact ⟨"", hnone _, .inl rfl⟩
      | allExports => exact ⟨"", hnone _, .inl rfl⟩
      | named name =>
          have hmember : names.expression (.external specifier (.named name)) =
              Identifier.memberOf (names.writtenExternal specifier) name := rfl
          rw [hmember, Identifier.memberOf]
          split
          · refine ⟨"." ++ name, String.append_assoc, .inr (.inl ?_)⟩
            rw [String.toList_append]
            rfl
          · refine ⟨"[" ++ (Identifier.quote name ++ "]"), ?_, .inr (.inr ?_)⟩
            · simp only [String.append_assoc, leading]
            · rw [String.toList_append]
              rfl

variable {names later : Names} {modules : List Module} {nested : List String}

theorem arriving_eq (hsame : names.SameSuggested later) (binding : Binding) :
    later.arriving modules binding = names.arriving modules binding := by
  have hslot : ∀ path slot, later.slotNames modules path slot =
      names.slotNames modules path slot := by
    intro path slot
    simp only [slotNames, nameSlot, hsame.suggested]
  cases binding with
  | definition path name => simp only [arriving, hslot]
  | exportsOf path => simp only [arriving, hslot]
  | external specifier name =>
      simp only [arriving, preferredExternal, hsame.external]

/-- What is written for a binding is a name that it arrived with, or one that no
function or block binds. -/
structure KeepsApart (modules : List Module) (nested : List String)
    (names : Names) : Prop where
  definition : ∀ path name,
    names.written path name ∈
        names.arriving modules (.definition path name) ∨
      names.written path name ∉ nested
  external : ∀ specifier name,
    names.writtenExternal specifier ∈
        names.arriving modules (.external specifier name) ∨
      names.writtenExternal specifier ∉ nested

namespace KeepsApart

theorem leading (hapart : names.KeepsApart modules nested)
    (binding : Binding) :
    names.leading binding ∈ names.arriving modules binding ∨
      names.leading binding ∉ nested := by
  cases binding with
  | definition path name => exact hapart.definition path name
  | exportsOf path => exact hapart.definition path namespaceSlot
  | external specifier name => exact hapart.external specifier name

/-- At first all names are the ones of the sources. -/
theorem of_initial (hsame : initial.SameWritten names) :
    names.KeepsApart modules nested where
  definition path name := by
    rw [hsame.written]
    exact .inl List.mem_cons_self
  external specifier name := by
    rw [hsame.writtenExternal]
    exact .inl (List.mem_cons_of_mem _ List.mem_cons_self)

theorem rename (hapart : names.KeepsApart modules nested) {path : Path}
    {name replacement : String}
    (hnew : replacement ∈ names.arriving modules (.definition path name) ∨
      replacement ∉ nested) :
    (names.rename path name replacement).KeepsApart modules nested where
  definition other asked := by
    rw [arriving_eq sameSuggested_rename, written_rename]
    split
    · rename_i hsame
      rw [hsame.1, hsame.2]
      exact hnew
    · exact hapart.definition other asked
  external specifier asked := by
    rw [arriving_eq sameSuggested_rename]
    exact hapart.external specifier asked

theorem renameExternal (hapart : names.KeepsApart modules nested)
    {specifier replacement : String}
    (hnew : replacement = names.preferredExternal specifier ∨
      replacement ∉ nested) :
    (names.renameExternal specifier replacement).KeepsApart modules
      nested where
  definition path name := by
    rw [arriving_eq sameSuggested_renameExternal]
    exact hapart.definition path name
  external asked name := by
    rw [arriving_eq sameSuggested_renameExternal,
      writtenExternal_renameExternal]
    split
    · rename_i hsame
      rw [hsame]
      apply hnew.imp_left
      intro hpreferred
      rw [hpreferred]
      exact List.mem_cons_self
    · exact hapart.external asked name

/-- A slot is named by a name that it may have. -/
theorem nameSlot (hapart : names.KeepsApart modules nested)
    {module : Module} (hmodule : module ∈ modules) {slot : String}
    (hslot : slot = defaultSlot ∨ slot = namespaceSlot) :
    (names.nameSlot module slot).2.KeepsApart modules nested := by
  refine hapart.rename (.inl (List.mem_cons_of_mem _ ?_))
  rw [slotNames, if_pos hslot]
  exact List.mem_map.mpr ⟨module, by simpa using hmodule, rfl⟩

end KeepsApart

end Names

namespace Settling

variable {context : NameContext} {nested : List String}
  {settling : Settling}

theorem keepsApart_addDefinition {module : Module}
    (hmodule : module ∈ context.modules)
    (hapart : settling.names.KeepsApart context.modules nested)
    (name : String) :
    (addDefinition module settling name).names.KeepsApart context.modules
      nested := by
  rw [addDefinition]
  split
  · exact hapart.nameSlot hmodule (.inl rfl)
  · exact hapart

theorem keepsApart_addModule {module : Module}
    (hmodule : module ∈ context.modules)
    (hapart : settling.names.KeepsApart context.modules nested) :
    (addModule context settling module).names.KeepsApart context.modules
      nested := by
  rw [addModule]
  have hdefined : ∀ defined : List String,
      (defined.foldl (addDefinition module) settling).names.KeepsApart
        context.modules nested := fun defined =>
    List.foldlRecOn defined _
      (motive := fun later : Settling =>
        later.names.KeepsApart context.modules nested) hapart
      fun _ hlater name _ => keepsApart_addDefinition hmodule hlater name
  split
  · exact (hdefined _).nameSlot hmodule (.inr rfl)
  · exact hdefined _

/-- Collecting the names that are wanted gives none but those that bindings
arrive with. -/
theorem keepsApart_collect {names : Names}
    (hapart : names.KeepsApart context.modules nested) :
    (collect context names).names.KeepsApart context.modules nested := by
  rw [collect]
  have hmodules : (context.modules.foldl (addModule context)
      ⟨names, .empty⟩).names.KeepsApart context.modules nested :=
    List.foldlRecOn context.modules _
      (motive := fun later : Settling =>
        later.names.KeepsApart context.modules nested) hapart
      fun _ hlater _ hmodule => keepsApart_addModule hmodule hlater
  have hexternals : ∀ start : Settling,
      start.names.KeepsApart context.modules nested →
      (context.externals.foldl addExternal start).names.KeepsApart
        context.modules nested := fun _ hstart =>
    List.foldlRecOn context.externals _
      (motive := fun later : Settling =>
        later.names.KeepsApart context.modules nested) hstart
      fun _ hlater _ _ => hlater.renameExternal (.inl rfl)
  exact List.foldlRecOn context.statements _
    (motive := fun later : Settling =>
      later.names.KeepsApart context.modules nested) (hexternals _ hmodules)
    fun _ hlater _ _ => hlater

end Settling

namespace Renaming

variable {modules : List Module} {nested : List String} {state : Renaming}

/-- Names that are kept apart while all nested names count as taken. -/
structure IsFresh (modules : List Module) (nested : List String)
    (state : Renaming) : Prop where
  apart : state.names.KeepsApart modules nested
  taken : ∀ name ∈ nested, name ∈ state.taken

theorem IsFresh.rename (hfresh : state.IsFresh modules nested)
    (wanted : String) (occupant : Occupant) :
    (rename wanted state occupant).IsFresh modules nested := by
  have hfree : Identifier.freeName state.taken ("_" ++ wanted) ∉ nested :=
    fun hnested => Identifier.freeName_notMem state.taken ("_" ++ wanted)
      (hfresh.taken _ hnested)
  constructor
  · cases occupant with
    | binding module name => exact hfresh.apart.rename (.inr hfree)
    | external specifier => exact hfresh.apart.renameExternal (.inr hfree)
    | unknown => exact hfresh.apart
  · exact fun name hname => List.mem_cons_of_mem _ (hfresh.taken name hname)

theorem IsFresh.renameOthers (hfresh : state.IsFresh modules nested)
    (wanted : String × List Occupant) :
    (renameOthers state wanted).IsFresh modules nested :=
  List.foldlRecOn _ _ (motive := fun later => IsFresh modules nested later)
    hfresh fun _ hlater occupant _ => hlater.rename wanted.1 occupant

end Renaming

namespace Names

/-- Settling conflicts keeps all names that it gives apart from functions and
blocks. -/
theorem keepsApart_deconflict {context : NameContext} {names : Names}
    (hsame : initial.SameWritten names) :
    (names.deconflict context).KeepsApart context.modules
      (context.modules.flatMap (·.tree.nestedNames)) := by
  rw [deconflict]
  generalize hnested : context.modules.flatMap (·.tree.nestedNames) = nested
  have hstart : Renaming.IsFresh context.modules nested
      ⟨(Settling.collect context names).names,
        (Settling.collect context names).occupancy.keys ++ nested⟩ :=
    ⟨Settling.keepsApart_collect (.of_initial hsame),
      fun _ hname => List.mem_append_right _ hname⟩
  exact (List.foldlRecOn _ Renaming.renameOthers
    (motive := fun later => Renaming.IsFresh context.modules nested later)
    hstart fun _ hlater wanted _ => hlater.renameOthers wanted).apart

end Names

end Bundler
