import Bundler.Proofs.Build.Kept
import Bundler.Proofs.Respelling.Bundle
import Bundler.Proofs.Graph.Reads
import Bundler.Proofs.Shake.Asking

/-!
# What a build reads

A loader reads each path once, whatever it is asked for and in whatever order.
When the graph of an entry module has been loaded, the rest of a build asks for
nothing that is not there, so it reads nothing, and it would come out the same
whatever the files had become.
-/

namespace Bundler

namespace Work

variable {α : Type} {operation : Loader → Shaking α} {loader : Loader}
  {shaker : Shaker}

/-- The session that a piece of work leaves behind, successful or not. -/
def leave (work : Work α) (session : Session) : Session :=
  match work session with
  | .ok _ after | .error _ after => after

/-- An operation that lacks no module runs once and loads nothing. -/
theorem shaking_of_settled (hsettled : ∀ path after,
      operation loader shaker ≠ .error (.unloaded path) after) :
    shaking operation ⟨loader, shaker⟩ =
      match operation loader shaker with
      | .ok value after => .ok value ⟨loader, after⟩
      | .error (.refused error) after => .error error ⟨loader, after⟩
      | .error (.unloaded path) _ =>
          .error (.unsettled path) ⟨loader, shaker⟩ := by
  rw [shaking, shakingWith]
  cases hrun : operation loader shaker with
  | ok value after => rfl
  | error failure after =>
      cases failure with
      | refused error => rfl
      | unloaded path => exact absurd hrun (hsettled path after)

theorem shakingWith_leave (operation : Loader → Shaking α) (times : Nat)
    (session : Session) : ∃ paths,
      ((shakingWith operation times).leave session).loader =
        session.loader.afterRequests paths := by
  induction times generalizing session with
  | zero =>
      refine ⟨[], ?_⟩
      rw [leave, shakingWith]
      cases operation session.loader session.shaker with
      | ok value after => rfl
      | error failure after => cases failure <;> rfl
  | succ times ih =>
      rw [leave, shakingWith]
      cases operation session.loader session.shaker with
      | ok value after => exact ⟨[], rfl⟩
      | error failure after =>
          cases failure with
          | refused error => exact ⟨[], rfl⟩
          | unloaded path =>
              obtain ⟨paths, hpaths⟩ := ih (request path session)
              refine ⟨path :: paths, hpaths.trans ?_⟩
              rw [request_eq]
              rfl

/-- An operation that includes statements changes the loader by requests. -/
theorem shaking_leave (operation : Loader → Shaking α) (session : Session) :
    ∃ paths, ((shaking operation).leave session).loader =
      session.loader.afterRequests paths :=
  shakingWith_leave operation _ session

end Work

section Calls

/-- A call on a loader. -/
inductive Call
  | load (path : Path)
  | loadGraph (path : Path)
  | resolveName (module : Module) (name : String)
  | resolveExport (module : Module) (name : String) (importer : Path)
  | exportNames (module : Module)
  | expand (shaker : Shaker) (module : Module) (id : Nat)
  | includeEffects (shaker : Shaker) (module : Module)
  | includeExport (shaker : Shaker) (module : Module) (name : String)
  | shake (shaker : Shaker) (module : Module)
      (requested : Option (List String))

/-- The loader that an operation with a shaker leaves behind. -/
def Loader.afterShaking {α : Type} (loader : Loader) (shaker : Shaker)
    (operation : Loader → Shaking α) : Loader :=
  ((Work.shaking operation).leave ⟨loader, shaker⟩).loader

/-- The loader that an operation which follows imports leaves behind. -/
def Loader.afterLinking {α : Type} (loader : Loader)
    (operation : Loader → Except LinkFailure α) : Loader :=
  ((Work.linking operation).leave ⟨loader, .ofNames .initial⟩).loader

/-- The loader that a call leaves behind, successful or not. -/
def Loader.after (loader : Loader) : Call → Loader
  | .load path => (Loading.load path).leave loader
  | .loadGraph path => (Loading.loadGraph path).leave loader
  | .resolveName module name =>
      loader.afterLinking fun loader => loader.resolveName module name
  | .resolveExport module name importer =>
      loader.afterLinking fun loader =>
        loader.resolveExport module name importer
  | .exportNames module =>
      loader.afterLinking fun loader => loader.exportNames module
  | .expand shaker module id =>
      loader.afterShaking shaker fun loader => Shaking.expand loader module id
  | .includeEffects shaker module =>
      loader.afterShaking shaker fun loader =>
        Shaking.includeEffects loader module
  | .includeExport shaker module name =>
      loader.afterShaking shaker fun loader =>
        Shaking.includeExport loader module name
  | .shake shaker module requested =>
      loader.afterShaking shaker fun loader =>
        Shaking.shake loader module requested

/-- The loader that a sequence of calls leaves behind. -/
def Loader.afterAll (loader : Loader) (calls : List Call) : Loader :=
  calls.foldl Loader.after loader

variable {files : Files} {resolver : Resolver} {loader : Loader}

/-- Calls that neither load a module nor a graph come down to requests. -/
theorem Loader.after_cases (loader : Loader) (call : Call) :
    (∃ paths, loader.after call = loader.afterRequests paths) ∨
      ∃ path, call = .loadGraph path := by
  cases call with
  | load path => exact .inl ⟨[path], rfl⟩
  | loadGraph path => exact .inr ⟨path, rfl⟩
  | resolveName | resolveExport | exportNames | expand | includeEffects
  | includeExport | shake => exact .inl (Work.shaking_leave _ _)

theorem Loader.after_grows (loader : Loader) (call : Call) :
    loader.Grows (loader.after call) := by
  rcases loader.after_cases call with ⟨paths, hpaths⟩ | ⟨path, rfl⟩
  · exact hpaths ▸ loader.afterRequests_grows paths
  · exact Loading.IsGrowth.loadGraph path loader

theorem Loader.Reachable.after (hreachable : Reachable files resolver loader)
    (call : Call) : Reachable files resolver (loader.after call) := by
  rcases loader.after_cases call with ⟨paths, hpaths⟩ | ⟨path, rfl⟩
  · exact hpaths ▸ hreachable.afterRequests paths
  · exact .loadGraph path hreachable

theorem Loader.afterAll_grows (loader : Loader) (calls : List Call) :
    loader.Grows (loader.afterAll calls) := by
  induction calls generalizing loader with
  | nil => exact .refl
  | cons call calls ih => exact (loader.after_grows call).trans (ih _)

theorem Loader.Reachable.afterAll (hreachable : Reachable files resolver loader)
    (calls : List Call) : Reachable files resolver (loader.afterAll calls) := by
  induction calls generalizing loader with
  | nil => exact hreachable
  | cons call calls ih => exact ih (hreachable.after call)

end Calls

section Over

/-- A loader over other files. -/
def Loader.over (loader : Loader) (files : Files) : Loader :=
  { loader with files := files }

/-- A bundle in a loader over other files. -/
def Bundle.over (bundle : Bundle) (files : Files) : Bundle :=
  { bundle with loader := bundle.loader.over files }

def Session.over (session : Session) (files : Files) : Session :=
  ⟨session.loader.over files, session.shaker⟩

theorem BundleError.respell_id (error : BundleError) :
    error.respell .id = error := by
  cases error <;> rfl

theorem LinkFailure.respell_id (failure : LinkFailure) :
    failure.respell .id = failure := by
  cases failure with
  | unloaded path => rfl
  | refused error => exact congrArg LinkFailure.refused error.respell_id

theorem Binding.respell_id (binding : Binding) :
    binding.respell .id = binding := by
  cases binding <;> rfl

theorem Except.change_id {ε α : Type} {onError : ε → ε} {onValue : α → α}
    (honError : ∀ failure, onError failure = failure)
    (honValue : ∀ value, onValue value = value) (outcome : Except ε α) :
    Except.change onError onValue outcome = outcome := by
  cases outcome with
  | ok value => exact congrArg Except.ok (honValue value)
  | error failure => exact congrArg Except.error (honError failure)

/-- What a loader knows does not depend on its files. -/
theorem Loader.respells_over (loader : Loader) (files : Files) :
    loader.Respells .id (loader.over files) where
  resolver := rfl
  find path := by
    have hfind : (loader.over files).find? path = loader.find? path := rfl
    rw [hfind]
    cases loader.find? path with
    | none => rfl
    | some outcome =>
        exact congrArg some (Except.change_id BundleError.respell_id
          (fun _ => rfl) outcome).symm
  fixed _ _ := rfl
  length := rfl
  modules := List.Perm.of_eq (List.map_id' _).symm

theorem Module.respell_id (module : Module) : module.respell .id = module :=
  rfl

theorem StatementId.respell_id (statement : StatementId) :
    statement.respell .id = statement :=
  rfl

theorem respellExport_id (exported : String × Binding) :
    respellExport .id exported = exported :=
  Prod.ext rfl exported.2.respell_id

theorem respellObject_id (object : Path × List (String × Binding)) :
    respellObject .id object = object :=
  Prod.ext rfl (List.map_id'' respellExport_id object.2)

theorem respellFound_id (found : (Path × String) × Binding) :
    respellFound .id found = found :=
  Prod.ext rfl found.2.respell_id

theorem Names.respell_id (names : Names) : names.respell .id = names := by
  have hentries : names.modules.change (Respelling.text .id)
      (fun own => own) = names.modules :=
    congrArg NameMap.mk (List.map_id' names.modules.entries)
  exact congrArg (Names.mk · names.externals) hentries

theorem Shaker.respell_id (shaker : Shaker) : shaker.respell .id = shaker := by
  have hseeded : shaker.seeded.map (Respelling.spell .id) = shaker.seeded :=
    List.map_id'' (fun _ => rfl) _
  rw [respell, Names.respell_id, List.map_id'' respellFound_id,
    List.map_id'' respellObject_id, List.map_id'' StatementId.respell_id,
    List.map_id'' StatementId.respell_id, hseeded]

theorem Bundle.respell_id (bundle : Bundle) (other : Loader) :
    bundle.respell .id other = { bundle with loader := other } := by
  rw [respell, Names.respell_id, List.map_id'' respellFound_id,
    List.map_id'' respellObject_id, List.map_id'' respellExport_id,
    List.map_id'' StatementId.respell_id, List.map_id'' Module.respell_id]
  rfl

/-- A bundle in a loader that knows the same by the same paths is written in the
same way. -/
theorem Bundle.generate_of_respells_id {bundle : Bundle} {other : Loader}
    (hrespells : bundle.loader.Respells .id other) :
    { bundle with loader := other }.generate = bundle.generate := by
  rw [← bundle.respell_id other, bundle.generate_respell hrespells]
  exact Except.change_id BundleError.respell_id (fun _ => rfl) _

end Over

namespace Bundle

section Complete

variable {loader : Loader} {entry : Module} (hfaithful : loader.IsFaithful)
  (hentry : loader.module entry.path = .ok entry)
  (hcomplete : loader.IsComplete entry)
include hfaithful hentry hcomplete

/-- A bundle is assembled from a complete graph without asking for a module. -/
theorem assemble_ne_unloaded (options : BundleOptions) (path : Path)
    (after : Shaker) :
    assemble options entry loader (.ofNames .initial) ≠
      .error (.unloaded path) after := by
  intro hrun
  obtain ⟨walk, hwalk⟩ :=
    ModuleWalk.exists_ofEntry_eq_ok hfaithful hcomplete hentry
  have hstays : Shaking.Stays loader entry (assemble options entry loader)
      fun _ => True := by
    have hwalks : Shaking.Stays loader entry
        (Shaking.ofExcept (ModuleWalk.ofEntry loader entry))
        fun _ => True := by
      refine .ofExcept (fun _ _ => trivial) fun path hfailed => ?_
      rw [hwalk] at hfailed
      cases hfailed
    exact hwalks.bind fun walk _ =>
      .bind (Shaking.shake_stays hfaithful hentry _)
        fun _ _ => .bind .get fun _ _ => .pure trivial
  have hlacks := hstays (Shaking.hasFound_ofNames .initial)
  rw [hrun] at hlacks
  exact hcomplete.not_lacks (hlacks path rfl)

end Complete

variable {bundle : Bundle} {module : Module} {failure : BundleError}

/-- References that cannot be rewritten have a name that cannot be written. -/
theorem exists_of_replacements_eq_error {start stop : Nat}
    {references : List Reference}
    (hfailed : bundle.replacements module start stop references =
      .error failure) :
    ∃ name, bundle.writtenName module name = .error failure := by
  induction references generalizing start with
  | nil => cases hfailed
  | cons reference references ih =>
      rw [replacements] at hfailed
      split at hfailed
      · exact ih hfailed
      · rcases Except.bind_eq_error_iff.mp hfailed with
          hname | ⟨_, _, hfailed⟩
        · exact ⟨_, hname⟩
        · split at hfailed
          · exact ih hfailed
          · rcases Except.bind_eq_error_iff.mp hfailed with
              hothers | ⟨_, _, hlast⟩
            · exact ih hothers
            · cases hlast

/-- A statement that cannot be written has a name that cannot. -/
theorem exists_of_statementChunk_eq_error {statement : Statement}
    (hfailed : bundle.statementChunk module statement = .error failure) :
    ∃ name, bundle.writtenName module name = .error failure := by
  rcases Except.bind_eq_error_iff.mp hfailed with htext | ⟨_, _, hlast⟩
  · rcases Except.bind_eq_error_iff.mp htext with hfound | ⟨_, _, hlast⟩
    · exact exists_of_replacements_eq_error hfound
    · split at hlast <;> cases hlast
  · cases hlast

/-- A bundle that cannot be written has a name in a module that cannot. -/
theorem exists_of_generate_eq_error
    (hfailed : bundle.generate = .error failure) :
    ∃ module ∈ bundle.modules, ∃ name,
      bundle.writtenName module name = .error failure := by
  rcases Except.bind_eq_error_iff.mp hfailed with hchunks | ⟨_, _, hlast⟩
  · obtain ⟨module, hmodule, hchunks⟩ :=
      Except.exists_of_mapM_eq_error hchunks
    refine ⟨module, hmodule, ?_⟩
    rcases Except.bind_eq_error_iff.mp hchunks with
      hstatements | ⟨_, _, hlast⟩
    · obtain ⟨statement, _, hstatement⟩ :=
        Except.exists_of_mapM_eq_error hstatements
      exact exists_of_statementChunk_eq_error hstatement
    · split at hlast <;> cases hlast
  · cases hlast

/-- A bundle of a complete graph is written without asking for a module. -/
theorem IsAssembled.generate_ne_unsettled {entry : Module} {walk : ModuleWalk}
    {shaker : Shaker} (hfaithful : bundle.loader.IsFaithful)
    (hassembled : bundle.IsAssembled entry walk shaker)
    (hcomplete : bundle.loader.IsComplete entry) (path : Path) :
    bundle.generate ≠ .error (.unsettled path) := by
  intro hfailed
  obtain ⟨module, hmember, name, hname⟩ := exists_of_generate_eq_error hfailed
  have hmodule := hassembled.module_loaded hfaithful hmember
  have hreaches :=
    ((hassembled.isPostorder hfaithful).reached module).mp hmember
  rw [writtenName] at hname
  split at hname
  · cases hname
  · split at hname
    · cases hname
    · split at hname
      · cases hname
      · rename_i error hresolve
        obtain rfl := Except.error.inj hname
        exact Loader.resolveName_ne_unsettled hfaithful path hresolve
      · rename_i unloaded hresolve
        exact hcomplete.not_lacks
          ((Loader.lacks_of_resolveName hfaithful hmodule hresolve).of_reaches
            hreaches)

/-- What is left of a build reads nothing: the loader stays as it is, the text is
written from what is loaded, and over other files all comes out the same. -/
def ReadsNothing (work : Work Bundle) (loader : Loader) : Prop :=
  ∀ others : Files,
    match work ⟨loader, .ofNames .initial⟩ with
    | .ok bundle after =>
        after.loader = loader ∧ bundle.loader = loader ∧
          (∀ path, bundle.generate ≠ .error (.unsettled path)) ∧
          work ⟨loader.over others, .ofNames .initial⟩ =
            .ok (bundle.over others) (after.over others) ∧
          (bundle.over others).generate = bundle.generate
    | .error error after =>
        after.loader = loader ∧
          work ⟨loader.over others, .ofNames .initial⟩ =
            .error error (after.over others)

/-- The same bundle is assembled over other files. -/
theorem assemble_over (options : BundleOptions) (entry : Module)
    (loader : Loader) (files : Files) (shaker : Shaker) :
    assemble options entry (loader.over files) shaker =
      match assemble options entry loader shaker with
      | .ok bundle after => .ok (bundle.over files) after
      | .error failure after => .error failure after := by
  have hmirrors :=
    assemble_respells (loader.respells_over files) options entry shaker
  rw [Shaker.respell_id, Module.respell_id] at hmirrors
  rw [hmirrors]
  cases hrun : assemble options entry loader shaker with
  | ok bundle after =>
      obtain ⟨walk, _, _, hbundle⟩ := assemble_eq_ok hrun
      have hloader : bundle.loader = loader := by rw [hbundle]
      have himage : bundle.respell .id (loader.over files) =
          bundle.over files := by
        rw [bundle.respell_id, Bundle.over, hloader]
      exact congrArg₂ EStateM.Result.ok himage after.respell_id
  | error failure after =>
      exact congrArg₂ EStateM.Result.error failure.respell_id after.respell_id

/-- A bundle is assembled from the loader that it keeps. -/
theorem isAssembled_of_assemble {options : BundleOptions} {entry : Module}
    {loader : Loader} {after : Shaker}
    (hentry : loader.module entry.path = .ok entry)
    (hrun : assemble options entry loader (.ofNames .initial) =
      .ok bundle after) :
    bundle.loader = loader ∧ ∃ walk, bundle.IsAssembled entry walk after := by
  obtain ⟨walk, hwalk, hshake, hbundle⟩ := assemble_eq_ok hrun
  rw [hbundle]
  exact ⟨rfl, walk, hentry, hwalk, hshake, rfl, rfl, rfl, rfl, rfl, rfl, rfl⟩

theorem readsNothing {loader : Loader} {entry : Module}
    (hfaithful : loader.IsFaithful)
    (hentry : loader.module entry.path = .ok entry)
    (hcomplete : loader.IsComplete entry) (options : BundleOptions) :
    ReadsNothing (Work.shaking (assemble options entry)) loader := by
  intro others
  have hsettled := assemble_ne_unloaded hfaithful hentry hcomplete options
  have hothers : ∀ path after,
      assemble options entry (loader.over others) (.ofNames .initial) ≠
        .error (.unloaded path) after := by
    intro path after hrun
    rw [assemble_over] at hrun
    split at hrun
    · cases hrun
    · rename_i hfailed
      obtain ⟨rfl, -⟩ := EStateM.Result.error.inj hrun
      exact hsettled path _ hfailed
  rw [Work.shaking_of_settled hsettled, Work.shaking_of_settled hothers,
    assemble_over]
  cases hrun : assemble options entry loader (.ofNames .initial) with
  | ok bundle after =>
      obtain ⟨hloader, walk, hassembled⟩ :=
        isAssembled_of_assemble hentry hrun
      refine ⟨rfl, hloader, fun path => ?_, rfl,
        generate_of_respells_id (bundle.loader.respells_over others)⟩
      exact hassembled.generate_ne_unsettled (hloader ▸ hfaithful)
        (hloader ▸ hcomplete) path
  | error failure after =>
      cases failure with
      | refused error => exact ⟨rfl, rfl⟩
      | unloaded path => exact absurd hrun (hsettled path after)

/-- A bundle that is built has the graph of its entry module for its loader, as
it was loaded first. -/
theorem build_loads {files : Files} {resolver : Resolver}
    {options : BundleOptions} {path : Path}
    (hbuild : build files resolver options path = .ok bundle) :
    ∃ entry walk shaker,
      Loading.loadGraph (entryPath path) (.ofFiles files resolver) =
        .ok entry bundle.loader ∧
      bundle.IsAssembled entry walk shaker := by
  rw [build] at hbuild
  split at hbuild
  · rename_i found session hprepare
    obtain rfl := Except.ok.inj hbuild
    obtain ⟨entry, loaded, hload, hshaking⟩ :=
      Outcome.bind_eq_ok_iff.mp hprepare
    obtain ⟨hgraph, hfresh⟩ := Work.loading_eq_ok hload
    have hreachable := Loader.Reachable.of_loadGraph hgraph
    obtain ⟨hentry, hcomplete⟩ := Loading.loadGraph_isComplete hgraph
    have hsession : loaded = ⟨loaded.loader, .ofNames .initial⟩ :=
      congrArg (Session.mk loaded.loader) hfresh
    rw [hsession, Work.shaking_of_settled (assemble_ne_unloaded
      hreachable.isFaithful hentry hcomplete options)] at hshaking
    split at hshaking
    · rename_i value after hrun
      obtain ⟨rfl, rfl⟩ := EStateM.Result.ok.inj hshaking
      obtain ⟨hloader, walk, hassembled⟩ :=
        isAssembled_of_assemble hentry hrun
      exact ⟨entry, walk, after, hloader ▸ hgraph, hassembled⟩
    · cases hshaking
    · cases hshaking
  · cases hbuild

end Bundle

/-- Whatever a loader is asked for, no path is read twice and what was answered
once is the answer from then on.  When the graph of an entry module has been
loaded, the rest of a build reads nothing. -/
theorem Loader.reads_once (files : Files) (resolver : Resolver) :
    (∀ calls : List Call,
      let loader := (Loader.ofFiles files resolver).afterAll calls
      loader.HasReadOnce ∧
        (∀ entry ∈ loader.loaded, entry.2 = loader.readModule entry.1) ∧
        ∀ path outcome, loader.find? path = some outcome →
          ∀ (more : List Call) (others : Files),
            let later := (loader.afterAll more).over others
            Loading.load path later = Loading.ofOutcome outcome later) ∧
    ∀ path entry loader,
      Loading.loadGraph path (.ofFiles files resolver) = .ok entry loader →
      ∀ options : BundleOptions,
        Bundle.ReadsNothing (Work.shaking (Bundle.assemble options entry))
          loader := by
  constructor
  · intro calls
    have hreachable := Reachable.afterAll
      (.start : Reachable files resolver (.ofFiles files resolver)) calls
    refine ⟨hreachable.hasReadOnce, hreachable.isFaithful, ?_⟩
    intro path outcome hfound more others
    exact Loading.load_of_find?
      ((Loader.afterAll_grows _ more).find?_eq hfound)
  · intro path entry loader hload options
    have hreachable := Loader.Reachable.of_loadGraph hload
    obtain ⟨hentry, hcomplete⟩ := Loading.loadGraph_isComplete hload
    exact Bundle.readsNothing hreachable.isFaithful hentry hcomplete options

/-- A module that imports another one. -/
def importingPair : Files := .ofList
  [(⟨"/m.js"⟩, "import { x } from './a';\nf(x);"),
   (⟨"/a.js"⟩, "export let x = 1;")]

/-- A file that was missing once is missing from then on, and once the two modules
are loaded the rest of their build reads nothing. -/
theorem Loader.reads_once_importingPair :
    (∃ error : BundleError, error.path = ⟨"/b.js"⟩ ∧
      ∀ others : Files,
        let later := ((Loader.ofFiles importingPair .plain).afterAll
          [.load ⟨"/b.js"⟩, .loadGraph ⟨"/m.js"⟩, .load ⟨"/a.js"⟩]).over others
        Loading.load ⟨"/b.js"⟩ later = .error error later) ∧
    ∃ entry loader,
      Loading.loadGraph ⟨"/m.js"⟩ (.ofFiles importingPair .plain) =
        .ok entry loader ∧
      Bundle.ReadsNothing
        (Work.shaking (Bundle.assemble .standard entry)) loader := by
  obtain ⟨hcalls, hrest⟩ := reads_once importingPair .plain
  constructor
  · have hfound : ((Loader.ofFiles importingPair .plain).afterAll
        [.load ⟨"/b.js"⟩]).find? ⟨"/b.js"⟩ =
          some (.error (.unreadable ⟨"/b.js"⟩ "no such file")) := by
      rfl
    exact ⟨_, rfl, (hcalls _).2.2 _ _ hfound
      [.loadGraph ⟨"/m.js"⟩, .load ⟨"/a.js"⟩]⟩
  · have hfacts : Outcome.passes (Loading.loadGraph ⟨"/m.js"⟩)
        (.ofFiles importingPair .plain) (fun _ _ => true) = true := by
      decide +kernel
    obtain ⟨entry, loader, hload, -⟩ := Outcome.exists_of_passes hfacts
    exact ⟨entry, loader, hload, hrest _ _ _ hload .standard⟩

end Bundler
