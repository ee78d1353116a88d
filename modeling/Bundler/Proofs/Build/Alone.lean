import Bundler.Proofs.Analysis.Plain
import Bundler.Proofs.Build.Unique
import Bundler.Proofs.Graph.Search
import Mathlib.Algebra.Order.BigOperators.Group.List
import Mathlib.Algebra.Order.Group.Nat

/-!
# Modules on their own

A module that neither imports nor exports anything is a whole program.  Building
it cannot fail once it is parsed: nothing else has to be loaded, and every need
is for a statement of the module, of which there are only so many.  No name has
two claimants, so nothing is renamed.
-/

namespace Bundler

/-- A module that neither imports nor exports anything. -/
structure Module.IsPlain (module : Module) : Prop where
  interface : module.interface = .empty
  dependencies : module.dependencies = []
  kinds : ∀ statement ∈ module.statements, statement.kind = .plain

namespace Module

variable {module : Module}

theorem IsPlain.imports (h : module.IsPlain) : module.imports = .empty := by
  rw [Module.imports, h.interface]
  rfl

theorem IsPlain.contains_imports (h : module.IsPlain) (name : String) :
    module.imports.contains name = false := by
  rw [h.imports]
  rfl

end Module

namespace Shaking

variable {loader : Loader} {module : Module} {first second third : Shaker}

/-- The statements of a module that have not been met. -/
def pending (module : Module) (shaker : Shaker) : List Nat :=
  (List.range module.statements.length).filter fun id =>
    !shaker.started.contains (module.path, id)

/-- The passage to a state that has met more statements, and nothing else. -/
structure Keeps (before after : Shaker) : Prop where
  started : before.started ⊆ after.started
  namespaces : after.namespaces = before.namespaces
  names : after.names = before.names

theorem Keeps.refl (shaker : Shaker) : Keeps shaker shaker :=
  ⟨List.Subset.refl _, rfl, rfl⟩

theorem Keeps.trans (hfirst : Keeps first second)
    (hsecond : Keeps second third) : Keeps first third :=
  ⟨List.Subset.trans hfirst.started hsecond.started,
    hsecond.namespaces.trans hfirst.namespaces,
    hsecond.names.trans hfirst.names⟩

/-- Meeting a statement leaves fewer of them. -/
theorem length_pending_lt {id : Nat} (hid : id < module.statements.length)
    (hnew : (module.path, id) ∉ first.started)
    (hstarted : (module.path, id) ∈ second.started)
    (hkeeps : Keeps first second) :
    (pending module second).length < (pending module first).length := by
  have hpending : id ∈ pending module first :=
    List.mem_filter.mpr ⟨List.mem_range.mpr hid, by simpa using hnew⟩
  have hmet : id ∉ pending module second := fun hmem => by
    simpa [hstarted] using (List.mem_filter.mp hmem).2
  have hsublist : (pending module second).Sublist (pending module first) :=
    List.monotone_filter_right _ fun other hother => by
      simp only [Bool.not_eq_true', List.contains_eq_mem,
        decide_eq_false_iff_not] at hother ⊢
      exact fun hmem => hother (hkeeps.started hmem)
  refine Nat.lt_of_le_of_ne hsublist.length_le fun hlength => hmet ?_
  rwa [hsublist.eq_of_length hlength]

section Meet

variable (hplain : module.IsPlain)
include hplain

/-- What gives a name its value can be included if statements can be met. -/
theorem exists_includeName_eq_ok {meet : Need → Shaking Unit}
    (Holds : Shaker → Prop)
    (hmeet : ∀ id before, Holds before →
      ∃ after, meet (.statement module.path id) before = .ok () after ∧
        Holds after) (name : String) {before : Shaker}
    (hbefore : Holds before) :
    ∃ after, includeName loader meet module name before = .ok () after ∧
      Holds after := by
  rw [includeName, hplain.contains_imports, includeDefinition]
  cases module.definitions.get? name with
  | none => exact ⟨before, rfl, hbefore⟩
  | some id => exact hmeet id before hbefore

/-- Including a statement succeeds if others can be met once it is started. -/
theorem exists_includeStatement_eq_ok
    (hmodule : loader.module module.path = .ok module)
    {meet : Need → Shaking Unit} {id : Nat} {before : Shaker}
    (hmeet : ∀ other between, Keeps before between →
      (module.path, id) ∈ between.started →
      (module.path, id) ∉ before.started → id < module.statements.length →
      ∃ after, meet (.statement module.path other) between = .ok () after ∧
        Keeps between after) :
    ∃ after, includeStatement loader meet module.path id before =
      .ok () after ∧ Keeps before after := by
  rw [includeStatement, Outcome.get_bind]
  by_cases hold : (module.path, id) ∈ before.started
  · rw [if_pos (by simpa using hold)]
    exact ⟨before, rfl, .refl before⟩
  · rw [if_neg (by simpa using hold)]
    have hstart : (modify fun shaker : Shaker => { shaker with
        started := (module.path, id) :: shaker.started } : Shaking Unit)
          before = .ok () { before with
            started := (module.path, id) :: before.started } := rfl
    have hlookup : ∀ shaker : Shaker,
        ofExcept (loader.module module.path) shaker = .ok module shaker :=
      fun shaker => by rw [hmodule]; rfl
    rw [Outcome.bind_of_ok hstart, Outcome.bind_of_ok (hlookup _)]
    have hkeeps : Keeps before { before with
        started := (module.path, id) :: before.started } :=
      ⟨List.subset_cons_self _ _, rfl, rfl⟩
    cases hstatement : module.statements[id]? with
    | none => exact ⟨_, rfl, hkeeps⟩
    | some statement =>
        have hid := (List.getElem?_eq_some_iff.mp hstatement).1
        let Holds (shaker : Shaker) : Prop :=
          Keeps before shaker ∧ (module.path, id) ∈ shaker.started
        have hnext : ∀ other between, Holds between →
            ∃ after, meet (.statement module.path other) between =
              .ok () after ∧ Holds after := by
          rintro other between ⟨hbetween, hstarted⟩
          obtain ⟨after, hrun, hafter⟩ :=
            hmeet other between hbetween hstarted hold hid
          exact ⟨after, hrun, hbetween.trans hafter, hafter.started hstarted⟩
        obtain ⟨read, hreads, hread⟩ := Outcome.exists_forM_eq_ok Holds
          (fun name _ _ => exists_includeName_eq_ok hplain Holds hnext name)
          ⟨hkeeps, List.mem_cons_self⟩
        have hincluded : Holds { read with
            included := read.included ++ [(module.path, id)] } :=
          ⟨⟨hread.1.started, hread.1.namespaces, hread.1.names⟩, hread.2⟩
        obtain ⟨after, hwrites, hafter⟩ := Outcome.exists_forM_eq_ok Holds
          (fun name _ _ => Outcome.exists_forM_eq_ok Holds
            fun writer _ => hnext writer) hincluded
        dsimp only
        rw [Outcome.bind_of_ok hreads]
        exact ⟨after, hwrites, hafter.1⟩

/-- A statement can be met within more steps than there are statements left. -/
theorem exists_meet_eq_ok (hmodule : loader.module module.path = .ok module)
    {steps : Nat} {before : Shaker} (id : Nat)
    (hsteps : (pending module before).length < steps) :
    ∃ after, meet loader steps (.statement module.path id) before =
      .ok () after ∧ Keeps before after := by
  induction steps generalizing before id with
  | zero => exact absurd hsteps (Nat.not_lt_zero _)
  | succ steps ih =>
      refine exists_includeStatement_eq_ok hplain hmodule
        fun other between hkeeps hstarted hnew hid => ih other ?_
      have hfewer := length_pending_lt hid hnew hstarted hkeeps
      omega

omit hplain in
theorem length_pending_lt_needBound
    (hmodule : loader.module module.path = .ok module) (shaker : Shaker) :
    (pending module shaker).length < needBound loader := by
  have hpending : (pending module shaker).length ≤
      module.statements.length := by
    have hle := List.length_filter_le
      (fun id => !shaker.started.contains (module.path, id))
      (List.range module.statements.length)
    rwa [List.length_range] at hle
  have hcounted : module.statements.length ∈
      loader.modules.map (·.statements.length) :=
    List.mem_map_of_mem (Loader.mem_modules hmodule)
  have hsum : module.statements.length ≤
      (loader.modules.map (·.statements.length)).foldr (· + ·) 0 :=
    List.le_sum_of_mem hcounted
  rw [needBound]
  omega

/-- The effects of a module on its own can be included. -/
theorem exists_includeEffects_eq_ok
    (hmodule : loader.module module.path = .ok module) {before : Shaker}
    (hfresh : before.seeded = []) :
    ∃ after, includeEffects loader module before = .ok () after ∧
      Keeps before after := by
  have hmark : (modify fun shaker : Shaker => { shaker with
      seeded := module.path :: shaker.seeded } : Shaking Unit) before =
        .ok () { before with seeded := module.path :: before.seeded } := rfl
  rw [includeEffects, seedEffects, Outcome.get_bind, hfresh,
    List.contains_nil, if_neg Bool.false_ne_true, Outcome.bind_of_ok hmark]
  refine Outcome.exists_forM_eq_ok (Keeps before) ?_
    ⟨List.Subset.refl _, rfl, rfl⟩
  rintro ⟨id, statement⟩ hnumbered between hbetween
  have hkind := hplain.kinds statement (List.of_mem_zip hnumbered).2
  simp only [hkind]
  split
  · exact ⟨between, rfl, hbetween⟩
  · obtain ⟨after, hrun, hafter⟩ := exists_meet_eq_ok hplain hmodule id
      (length_pending_lt_needBound hmodule between)
    exact ⟨after, hrun, hbetween.trans hafter⟩

/-- A module on its own can be shaken, if no export of it is asked for. -/
theorem exists_shake_eq_ok
    (hmodule : loader.module module.path = .ok module) (names : Names)
    {requested : Option (List String)} (hnone : requested.getD [] = []) :
    ∃ after, shake loader module requested (.ofNames names) = .ok [] after ∧
      after.namespaces = [] ∧ after.names = names := by
  obtain ⟨after, hrun, hafter⟩ :=
    exists_includeEffects_eq_ok hplain hmodule
      (show (Shaker.ofNames names).seeded = [] from rfl)
  refine ⟨after, ?_, hafter.namespaces, hafter.names⟩
  rw [shake, Outcome.bind_of_ok hrun]
  cases requested with
  | some names =>
      obtain rfl : names = [] := hnone
      rfl
  | none =>
      have hnames : loader.exportNames module = .ok [] := by
        have hown : module.exports.keys = [] := by
          rw [Module.exports, hplain.interface]
          rfl
        have hstars : module.starSources = [] := by
          rw [Module.starSources, hplain.interface]
          rfl
        rw [Loader.exportNames, Loader.collectExports, hown, hstars]
        rfl
      rw [hnames]
      rfl

end Meet

end Shaking

/-! ### Names -/

/-- What settles the names of a bundle of one module. -/
def NameContext.alone (module : Module)
    (statements : List (Module × Statement)) : NameContext :=
  ⟨[module], statements, [], []⟩

/-- Statements of a module that define no pseudo names. -/
structure NameContext.IsPlain (module : Module)
    (statements : List (Module × Statement)) : Prop where
  own : ∀ found ∈ statements,
    found.1 = module ∧ found.2 ∈ module.statements
  names : ∀ found ∈ statements, ∀ name ∈ found.2.defines,
    ¬ IsPseudoName name

section Names

variable {module : Module} {statements : List (Module × Statement)}
  {names : Names}

namespace NameContext

theorem IsPlain.isProper (h : IsPlain module statements) :
    (alone module statements).IsProper where
  once := List.nodup_singleton _
  plain found hfound hdefines := h.names found hfound _ hdefines (.inr rfl)

/-- In a module on its own a name is claimed by its definition, or as unknown if
it has none. -/
theorem claimant_alone (h : IsPlain module statements)
    (htables : module.HasTables) {claim : Claim}
    (hclaim : claim ∈ (alone module statements).claims names) :
    claim.2 = if module.definitions.contains claim.1 then
      .binding module.path claim.1 else .unknown := by
  simp only [claims, alone, List.flatMap_singleton, List.map_nil,
    List.append_nil, List.mem_append, List.mem_flatMap] at hclaim
  rcases hclaim with hdefined | ⟨found, hfound, hunknown⟩
  · rw [moduleClaims] at hdefined
    obtain ⟨name, hname, rfl⟩ := List.mem_map.mp hdefined
    simp only [List.contains_nil, Bool.false_eq_true, if_false,
      List.append_nil] at hname
    obtain ⟨found, hfound, hdefines⟩ := List.mem_flatMap.mp hname
    have hmem := List.mem_of_mem_filter hfound
    have hword : ¬ (name = defaultSlot ∨ name = namespaceSlot) :=
      h.names found hmem name hdefines
    obtain ⟨id, hid⟩ :=
      htables.isSome_get?_definitions (h.own found hmem).2 hdefines
    rw [Names.initialName, if_neg hword, NameMap.contains, hid]
    rfl
  · obtain ⟨name, hname, rfl⟩ := List.mem_map.mp hunknown
    obtain ⟨_, hnew⟩ := List.mem_filter.mp hname
    rw [Bool.and_eq_true, Bool.not_eq_true', Bool.not_eq_true',
      (h.own found hfound).1] at hnew
    rw [hnew.2]
    rfl

end NameContext

namespace Names

/-- In a module on its own every name is written as it is. -/
theorem written_deconflict_alone (h : NameContext.IsPlain module statements)
    (htables : module.HasTables) (hsame : initial.SameWritten names)
    (path : Path) {name : String} (hname : ¬ IsPseudoName name) :
    (names.deconflict (.alone module statements)).written path name =
      name := by
  have hrecords := Settling.records_collect h.isProper hsame
  have hnone : Renaming.losersOf (.ofClaims
      ((NameContext.alone module statements).claims names)) = [] := by
    refine List.eq_nil_iff_forall_not_mem.mpr fun claim hloser => ?_
    have hclaim := Renaming.mem_of_mem_losersOf hloser
    refine (Renaming.notMem_losersOf hclaim).mpr ?_ hloser
    have hmem : claim ∈ Occupancy.rivals
        ((NameContext.alone module statements).claims names) claim.1 :=
      Occupancy.mem_rivals.mpr ⟨hclaim, rfl⟩
    have hlast := List.getLast?_eq_some_getLast (List.ne_nil_of_mem hmem)
    obtain ⟨hother, hwanted⟩ :=
      Occupancy.mem_rivals.mp (List.mem_of_getLast? hlast)
    rw [hlast, Option.some.injEq]
    refine Prod.ext hwanted ?_
    rw [NameContext.claimant_alone h htables hother,
      NameContext.claimant_alone h htables hclaim, hwanted]
  rw [deconflict, hrecords.occupancy, Renaming.foldl_renameOthers, hnone]
  exact hrecords.plain path name (fun hslot => hname (.inl hslot))
    fun hslot => hname (.inr hslot)

end Names

end Names

/-! ### Building -/

namespace Module

/-- A source without imports and exports that is parsed makes a module. -/
theorem exists_ofSource_eq_ok (resolver : Resolver) (path : Path)
    {source : String} {program : Program}
    (hparse : Program.parse source = .ok program)
    (hplain : program.IsPlain) :
    ∃ module, ofSource resolver path source = .ok module ∧
      module.path = path ∧ module.source = source ∧ module.IsPlain ∧
      Analysis.ofProgram path source program = .ok module.toAnalysis := by
  obtain ⟨analysis, hanalysis⟩ :=
    Analysis.exists_ofProgram_eq_ok path source hplain
  obtain ⟨hinterface, hkinds⟩ := Analysis.plain_of_ofProgram hplain hanalysis
  refine ⟨⟨analysis, path, source, []⟩, ?_, rfl, rfl,
    ⟨hinterface, rfl, hkinds⟩, hanalysis⟩
  rw [ofSource, hparse]
  simp only [Except.mapError, bind, Except.bind, hanalysis, hinterface]
  rfl

end Module

section Build

variable {files : Files} {resolver : Resolver} {path : Path}
  {source : String} {module : Module}

/-- The loader that holds a module and nothing else. -/
def Loader.alone (files : Files) (resolver : Resolver) (module : Module) :
    Loader :=
  ⟨files, resolver, [(module.path, .ok module)], [module.path]⟩

theorem Loader.module_alone (files : Files) (resolver : Resolver)
    (module : Module) :
    (alone files resolver module).module module.path = .ok module := by
  simp [Loader.module, alone, find?, Path.same]

/-- Loading a module that imports nothing loads it alone. -/
theorem Loading.loadGraph_alone
    (hread : files.read module.path = .ok source)
    (hsource : Module.ofSource resolver module.path source = .ok module)
    (hdependencies : module.dependencies = []) :
    loadGraph module.path (.ofFiles files resolver) =
      .ok module (.alone files resolver module) := by
  have hload : load module.path (.ofFiles files resolver) =
      .ok module ⟨files, resolver, [(module.path, .ok module)], []⟩ := by
    have hreadModule : (Loader.ofFiles files resolver).readModule module.path =
        .ok module := by
      rw [Loader.readModule]
      simp only [Loader.ofFiles, hread, hsource]
    rw [load, Outcome.get_bind]
    simp only [hreadModule]
    rfl
  rw [loadGraph, Outcome.bind_of_ok hload]
  have hfollow : ∀ steps, follow (steps + 1) module
      ⟨files, resolver, [(module.path, .ok module)], []⟩ =
        .ok () (.alone files resolver module) := by
    intro steps
    rw [follow, hdependencies]
    rfl
  exact Outcome.bind_of_ok (hfollow _)

theorem ModuleWalk.ofEntry_alone (loader : Loader)
    (hdependencies : module.dependencies = []) :
    ofEntry loader module = .ok ⟨[module.path], [module], []⟩ := by
  rw [ofEntry, visit, hdependencies]
  rfl

namespace Bundle

/-- A bundle that holds one module, of which nothing is exported. -/
structure IsAlone (bundle : Bundle) (module : Module) : Prop where
  modules : bundle.modules = [module]
  namespaces : bundle.namespaces = []
  names : ∃ included, bundle.names =
    Names.initial.deconflict (.alone module (withContents [module] included))

/-- Building a module that neither imports nor exports anything succeeds. -/
theorem exists_build_eq_ok {options : BundleOptions} {path : Path}
    (hread : files.read (entryPath path) = .ok source)
    (hsource : Module.ofSource resolver (entryPath path) source = .ok module)
    (hpath : module.path = entryPath path) (hplain : module.IsPlain)
    (hexports : options.exports.getD [] = []) :
    ∃ bundle, build files resolver options path = .ok bundle ∧
      bundle.options = options ∧ bundle.IsAlone module := by
  rw [← hpath] at hread hsource
  have hgraph := Loading.loadGraph_alone hread hsource hplain.dependencies
  obtain ⟨shaker, hshake, hnamespaces, hnames⟩ :=
    Shaking.exists_shake_eq_ok hplain
      (Loader.module_alone files resolver module) .initial hexports
  have hwalk : Shaking.ofExcept (ModuleWalk.ofEntry
      (.alone files resolver module) module) (.ofNames .initial) =
        .ok ⟨[module.path], [module], []⟩ (.ofNames .initial) := by
    rw [ModuleWalk.ofEntry_alone _ hplain.dependencies]
    rfl
  have hassemble : ∃ bundle, assemble options module
      (.alone files resolver module) (.ofNames .initial) =
        .ok bundle shaker ∧ bundle.options = options ∧
          bundle.IsAlone module := by
    rw [assemble, Outcome.bind_of_ok hwalk, Outcome.bind_of_ok hshake,
      Outcome.get_bind]
    refine ⟨_, rfl, rfl, rfl, hnamespaces, shaker.included, ?_⟩
    rw [hnames, hnamespaces]
    rfl
  obtain ⟨bundle, hassembled, hoptions, halone⟩ := hassemble
  refine ⟨bundle, ?_, hoptions, halone⟩
  have hload : Work.loadGraph module.path (.ofFiles files resolver) =
      .ok module ⟨.alone files resolver module, .ofNames .initial⟩ := by
    rw [Work.loadGraph, Work.loading, Session.ofFiles]
    simp only [hgraph]
  rw [build, prepare, ← hpath, Outcome.bind_of_ok hload, Work.shaking,
    Work.shakingWith]
  simp only [hassembled]

/-- In a bundle of one module the names of its source are written unchanged. -/
theorem IsAlone.written {bundle : Bundle} (h : bundle.IsAlone module)
    (htables : module.HasTables)
    (hnames : ∀ statement ∈ module.statements, ∀ name ∈ statement.defines,
      ¬ IsPseudoName name) (path : Path) {name : String}
    (hname : ¬ IsPseudoName name) :
    bundle.names.written path name = name := by
  obtain ⟨included, hsettled⟩ := h.names
  rw [hsettled]
  have hown : ∀ found ∈ withContents [module] included,
      found.1 = module ∧ found.2 ∈ module.statements := by
    intro found hfound
    obtain ⟨id, hmodule, _, hstatement⟩ := mem_withContents.mp hfound
    obtain rfl := List.mem_singleton.mp hmodule
    exact ⟨rfl, List.mem_of_getElem? hstatement⟩
  exact Names.written_deconflict_alone
    ⟨hown, fun found hfound => hnames found.2 (hown found hfound).2⟩ htables
    (.refl _) path hname

end Bundle

end Build

end Bundler
