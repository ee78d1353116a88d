import Bundler.Build.Bundle
import Bundler.Proofs.Shake.Least

/-!
# How a bundle is assembled

A successful build shakes what is loaded from a fresh state, however often it
had to load more and start over.  The bundle holds the modules of the walk
through the imports and, of their statements, those that were included.
-/

namespace Bundler

namespace Work

variable {α : Type} {files : Files} {resolver : Resolver}
  {operation : Loader → Shaking α} {session after : Session} {value : α}

theorem loading_eq_ok {operation : Loading α}
    (hrun : loading operation session = .ok value after) :
    operation session.loader = .ok value after.loader ∧
      after.shaker = session.shaker := by
  rw [loading] at hrun
  split at hrun
  · rename_i found loader hfound
    obtain ⟨rfl, rfl⟩ := EStateM.Result.ok.inj hrun
    exact ⟨hfound, rfl⟩
  · cases hrun

/-- Asking for a module loads it and changes nothing else. -/
theorem request_eq (path : Path) (session : Session) :
    request path session =
      { session with loader := (Loading.load path).leave session.loader } := by
  rw [request, load, loading, Loading.leave]
  cases Loading.load path session.loader <;> rfl

/-- An operation that succeeds in the end has run on a loader that grew out of
the one at the start, from the state at the start. -/
theorem shakingWith_eq_ok {times : Nat}
    (hrun : shakingWith operation times session = .ok value after) :
    session.loader.Grows after.loader ∧
      (Loader.Reachable files resolver session.loader →
        Loader.Reachable files resolver after.loader) ∧
      operation after.loader session.shaker = .ok value after.shaker := by
  induction times generalizing session with
  | zero =>
      rw [shakingWith] at hrun
      split at hrun
      · rename_i found shaker hfound
        obtain ⟨rfl, rfl⟩ := EStateM.Result.ok.inj hrun
        exact ⟨.refl, id, hfound⟩
      · cases hrun
      · cases hrun
  | succ times ih =>
      rw [shakingWith] at hrun
      split at hrun
      · rename_i found shaker hfound
        obtain ⟨rfl, rfl⟩ := EStateM.Result.ok.inj hrun
        exact ⟨.refl, id, hfound⟩
      · cases hrun
      · rename_i path _ _
        rw [request_eq] at hrun
        obtain ⟨hgrows, hreachable, hfound⟩ := ih hrun
        exact ⟨(Loading.IsGrowth.load path _).trans hgrows,
          fun hstart => hreachable (.load path hstart), hfound⟩

end Work

namespace ModuleWalk

variable {loader : Loader} {entry : Module} {walk : ModuleWalk}

/-- A walk leaves modules that are loaded. -/
def IsLoaded (loader : Loader) (walk : ModuleWalk) : Prop :=
  ∀ module ∈ walk.modules, loader.module module.path = .ok module

theorem isLoaded_visit (hfaithful : loader.IsFaithful) {steps : Nat}
    {module : Module} {before after : ModuleWalk}
    (hmodule : loader.module module.path = .ok module)
    (hbefore : before.IsLoaded loader)
    (hvisit : visit loader steps module before = .ok after) :
    after.IsLoaded loader := by
  induction steps generalizing module before after with
  | zero => simp [visit] at hvisit
  | succ steps ih =>
      rw [visit] at hvisit
      obtain ⟨left, hfold, hleave⟩ := Except.bind_eq_ok_iff.mp hvisit
      have hleft : left.IsLoaded loader := by
        refine Except.foldlM_induction (IsLoaded loader) ?_ ?_ hfold
        · exact hbefore
        · rintro ⟨_, dependency⟩ _ walk next hwalk hstep
          cases dependency with
          | external specifier =>
              obtain rfl := Except.ok.inj hstep
              exact hwalk
          | internal path =>
              obtain ⟨dependency, hfound, hstep⟩ :=
                Except.bind_eq_ok_iff.mp hstep
              split at hstep
              · obtain rfl := Except.ok.inj hstep
                exact hwalk
              · exact ih (hfaithful.module_path hfound) hwalk hstep
      obtain rfl := Except.ok.inj hleave
      intro other hother
      cases List.mem_append.mp hother with
      | inl hold => exact hleft other hold
      | inr hlast =>
          rw [List.mem_singleton.mp hlast]
          exact hmodule

theorem isLoaded_ofEntry (hfaithful : loader.IsFaithful)
    (hentry : loader.module entry.path = .ok entry)
    (hwalk : ofEntry loader entry = .ok walk) : walk.IsLoaded loader := by
  refine isLoaded_visit hfaithful hentry ?_ hwalk
  intro module hmodule
  exact absurd hmodule List.not_mem_nil

end ModuleWalk

namespace Bundle

theorem mem_keptIn {included : List StatementId} {module : Module}
    {id : Nat} :
    id ∈ keptIn included module ↔ (module.path, id) ∈ included := by
  simp only [keptIn, List.mem_mergeSort, List.mem_map, List.mem_filter,
    decide_eq_true_eq]
  constructor
  · rintro ⟨⟨path, id⟩, ⟨hincluded, rfl⟩, rfl⟩
    exact hincluded
  · intro hincluded
    exact ⟨(module.path, id), ⟨hincluded, rfl⟩, rfl⟩

/-- The statements of a bundle are the included ones of its modules. -/
theorem mem_inOrder {modules : List Module} {included : List StatementId}
    {module : Module} {id : Nat} (hmodule : module ∈ modules) :
    (module.path, id) ∈ inOrder modules included ↔
      (module.path, id) ∈ included := by
  simp only [inOrder, List.mem_flatMap, List.mem_map, mem_keptIn]
  constructor
  · rintro ⟨other, _, found, hincluded, heq⟩
    rwa [← heq]
  · intro hincluded
    exact ⟨module, hmodule, id, hincluded, rfl⟩

/-- What settles the names of a bundle with the given parts. -/
def contextOf (walk : ModuleWalk) (shaker : Shaker) : NameContext :=
  { modules := walk.modules
    statements := withContents walk.modules shaker.included
    namespaces := shaker.namespaces.map (·.1)
    externals := walk.externals }

/-- A bundle and what it was made of. -/
structure IsAssembled (bundle : Bundle) (entry : Module) (walk : ModuleWalk)
    (shaker : Shaker) : Prop where
  loaded : bundle.loader.module entry.path = .ok entry
  walked : ModuleWalk.ofEntry bundle.loader entry = .ok walk
  shaken : Shaking.shake bundle.loader entry bundle.options.exports
    (.ofNames .initial) = .ok bundle.exports shaker
  path : bundle.entry = entry.path
  modules : bundle.modules = walk.modules
  externals : bundle.externals = walk.externals
  statements : bundle.statements = inOrder walk.modules shaker.included
  namespaces : bundle.namespaces = shaker.namespaces
  bindings : bundle.bindings = shaker.bindings
  settled : bundle.names = shaker.names.deconflict (contextOf walk shaker)

variable {files : Files} {resolver : Resolver} {options : BundleOptions}
  {path : Path} {bundle : Bundle}

theorem assemble_eq_ok {entry : Module} {loader : Loader}
    {before after : Shaker}
    (hrun : assemble options entry loader before = .ok bundle after) :
    ∃ walk, ModuleWalk.ofEntry loader entry = .ok walk ∧
      Shaking.shake loader entry options.exports before =
        .ok bundle.exports after ∧
      bundle = {
        options := options
        loader := loader
        entry := entry.path
        modules := walk.modules
        externals := walk.externals
        statements := inOrder walk.modules after.included
        namespaces := after.namespaces
        bindings := after.bindings
        exports := bundle.exports
        names := after.names.deconflict (contextOf walk after) } := by
  rw [assemble] at hrun
  obtain ⟨walk, _, hlookup, hrun⟩ := Outcome.bind_eq_ok_iff.mp hrun
  obtain ⟨hwalk, rfl⟩ := Shaking.ofExcept_eq_ok_iff.mp hlookup
  obtain ⟨exports, shaken, hshake, hrun⟩ := Outcome.bind_eq_ok_iff.mp hrun
  obtain ⟨_, _, hget, hrun⟩ := Outcome.bind_eq_ok_iff.mp hrun
  obtain ⟨rfl, rfl⟩ := Outcome.get_eq_ok_iff.mp hget
  obtain ⟨rfl, rfl⟩ := Outcome.pure_eq_ok_iff.mp hrun
  exact ⟨walk, hwalk, hshake, rfl⟩

/-- A successful build assembles a bundle from modules that are loaded. -/
theorem build_eq_ok (hbuild : build files resolver options path = .ok bundle) :
    Loader.Reachable files resolver bundle.loader ∧
      bundle.options = options ∧
      ∃ entry walk shaker, bundle.IsAssembled entry walk shaker := by
  rw [build] at hbuild
  split at hbuild
  · rename_i found session hprepare
    obtain rfl := Except.ok.inj hbuild
    obtain ⟨entry, loaded, hload, hshaking⟩ :=
      Outcome.bind_eq_ok_iff.mp hprepare
    obtain ⟨hgraph, hfresh⟩ := Work.loading_eq_ok hload
    have hstart := Loader.Reachable.of_loadGraph hgraph
    obtain ⟨hgrows, hreachable, hassemble⟩ :=
      Work.shakingWith_eq_ok hshaking
    have hfinal := hreachable hstart
    rw [hfresh] at hassemble
    obtain ⟨walk, hwalk, hshake, hbundle⟩ := assemble_eq_ok hassemble
    have hentry : session.loader.module entry.path = .ok entry :=
      hfinal.isFaithful.module_path
        (hgrows.module_eq_ok (Loading.loadGraph_eq_ok hgraph))
    rw [hbundle]
    exact ⟨hfinal, rfl, entry, walk, session.shaker,
      ⟨hentry, hwalk, hshake, rfl, rfl, rfl, rfl, rfl, rfl, rfl⟩⟩
  · cases hbuild

/-- The modules of a bundle are loaded. -/
theorem IsAssembled.module_loaded {entry module : Module} {walk : ModuleWalk}
    {shaker : Shaker} (hfaithful : bundle.loader.IsFaithful)
    (hassembled : bundle.IsAssembled entry walk shaker)
    (hmodule : module ∈ bundle.modules) :
    bundle.loader.module module.path = .ok module := by
  rw [hassembled.modules] at hmodule
  exact ModuleWalk.isLoaded_ofEntry hfaithful hassembled.loaded
    hassembled.walked module hmodule

end Bundle

end Bundler
