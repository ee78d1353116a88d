import Bundler.Proofs.Build.Reading
import Bundler.Proofs.Respelling.Loading

/-!
# The order of loading

Modules are kept in the order in which they were first asked for, and by the
paths that they were asked for by.  Neither shows in a bundle: whatever modules
of its graph were asked for before, the same modules are written in the same
order, with the same statements under the same names.
-/

namespace Bundler

namespace Loader

variable {graph other : Loader} {path : Path} {module : Module}

/-- A path to a module of a graph at which the files have its text. -/
def HasAt (graph : Loader) (path : Path) : Prop :=
  ∃ module, graph.module path = .ok module ∧
    graph.files.read path = .ok module.source

/-- The files have the text of a module at its own path. -/
theorem hasAt_path (hgraph : graph.IsFaithful)
    (hmodule : graph.module path = .ok module) :
    graph.HasAt module.path :=
  ⟨module, hgraph.module_path hmodule, hgraph.read_path hmodule⟩

/-- Files in memory have the text of a module at every path to it. -/
theorem hasAt_of_ofList {files : List (Path × String)}
    (hgraph : graph.IsFaithful) (hfiles : graph.files = .ofList files)
    (hmodule : graph.module path = .ok module) : graph.HasAt path := by
  obtain ⟨_, hown, hread⟩ := hasAt_path hgraph hmodule
  rw [hgraph.module_path hmodule] at hown
  obtain rfl := Except.ok.inj hown
  have hnormal : path.normalize = module.path.normalize := by
    rw [Path.normalize, Path.normalize, (hgraph.module_eq_ok hmodule).1]
  rw [hfiles] at hread
  refine ⟨module, hmodule, ?_⟩
  rw [hfiles, Files.read_ofList_of_normalize hnormal, hread]

/-- A request for a module of a graph keeps to the graph. -/
theorem Shadows.request {calls : List Path} {start : Loader}
    (hgraph : graph.IsFaithful) (hfiles : other.files = graph.files)
    (hresolver : other.resolver = graph.resolver)
    (hshadows : Shadows graph calls start other) (hcall : path ∈ calls)
    (hasAt : graph.HasAt path) :
    Shadows graph calls start ((Loading.load path).leave other) := by
  cases hknown : other.find? path with
  | some outcome =>
      rwa [Loading.leave, Loading.load_of_find? hknown, ← Loading.leave,
        Loading.leave_ofOutcome]
  | none =>
      obtain ⟨module, hmodule, hread⟩ := hasAt
      obtain ⟨hparts, hsource⟩ := hgraph.module_eq_ok hmodule
      have houtcome : other.readModule path =
          .ok { module with path := path } := by
        rw [readModule, hfiles, hread, hresolver]
        exact Module.ofSource_of_same (by simp [Path.same, hparts]) hsource
      rw [Loading.leave, Loading.load_of_new hknown, ← Loading.leave,
        Loading.leave_ofOutcome, houtcome]
      refine ⟨hshadows.files, hshadows.resolver, fun entry hentry => ?_,
        fun entry hentry => ?_, fun asked hasked => ?_, hshadows.followed⟩
      · rcases List.mem_append.mp hentry with hold | hlast
        · exact hshadows.holds entry hold
        · rw [List.mem_singleton.mp hlast]
          exact ⟨module, hmodule, rfl⟩
      · rcases List.mem_append.mp hentry with hold | hlast
        · exact hshadows.spelt entry hold
        · rw [List.mem_singleton.mp hlast]
          exact .inl hcall
      · rw [find?_keeping, Option.or_eq_none_iff] at hasked
        exact hshadows.covers asked hasked.1

end Loader

namespace Work

/-- Asks for modules, whatever comes of it. -/
def requestAll (paths : List Path) : Work PUnit := fun session =>
  .ok ⟨⟩ (paths.foldl (fun session path => request path session) session)

theorem requestAll_eq (paths : List Path) (session : Session) :
    requestAll paths session =
      .ok ⟨⟩ ⟨session.loader.afterRequests paths, session.shaker⟩ := by
  rw [requestAll]
  refine congrArg (EStateM.Result.ok PUnit.unit) ?_
  induction paths generalizing session with
  | nil => rfl
  | cons path paths ih => rw [List.foldl_cons, ih, request_eq]; rfl

end Work

namespace Loader

variable {graph other : Loader}

/-- Requests for modules of a graph keep to the graph. -/
theorem Shadows.afterRequests {start : Loader} {calls asked : List Path}
    (hgraph : graph.IsFaithful) (hstart : start.Grows graph)
    (hshadows : Shadows graph calls start other)
    (hasked : ∀ call ∈ asked, call ∈ calls ∧ graph.HasAt call) :
    Shadows graph calls start (other.afterRequests asked) := by
  induction asked generalizing other with
  | nil => exact hshadows
  | cons call asked ih =>
      obtain ⟨hcall, hasAt⟩ := hasked call List.mem_cons_self
      refine ih (hshadows.request hgraph ?_ ?_ hcall hasAt)
        fun call hcall => hasked call (List.mem_cons_of_mem _ hcall)
      · rw [hshadows.files, hstart.files_eq]
      · rw [hshadows.resolver, hstart.resolver_eq]

/-- Requests for modules that are known change nothing. -/
theorem afterRequests_of_known {asked : List Path}
    (hknown : ∀ call ∈ asked, other.find? call ≠ none) :
    other.afterRequests asked = other := by
  induction asked with
  | nil => rfl
  | cons call asked ih =>
      obtain ⟨outcome, hfound⟩ := Option.ne_none_iff_exists'.mp
        (hknown call List.mem_cons_self)
      have hkept : (Loading.load call).leave other = other := by
        rw [Loading.leave, Loading.load_of_find? hfound, ← Loading.leave,
          Loading.leave_ofOutcome]
      rw [Loader.afterRequests, List.foldl_cons, hkept]
      exact ih fun call hcall => hknown call (List.mem_cons_of_mem _ hcall)

end Loader

namespace Bundle

/-- Bundles of the same modules, perhaps under other paths to them, of which the
same is made. -/
structure Agrees (bundle other : Bundle) : Prop where
  entry : other.entry.same bundle.entry = true
  modules : List.Forall₂ (fun module image => Loader.IsImage image module)
    bundle.modules other.modules
  statements : List.Forall₂ (fun left right : StatementId =>
    left.1.same right.1 = true ∧ left.2 = right.2)
    bundle.statements other.statements
  renames : List.Forall₂ (fun module image : Module =>
    other.names.renames image.path = bundle.names.renames module.path)
    bundle.modules other.modules
  externals : other.externalInfos = bundle.externalInfos
  exports : other.exports.map (fun exported =>
      (exported.1, other.names.expression exported.2)) =
    bundle.exports.map fun exported =>
      (exported.1, bundle.names.expression exported.2)
  output : ∀ output,
    other.generate = .ok output ↔ bundle.generate = .ok output

theorem agrees_respell {respelling : Respelling} {other : Loader}
    (bundle : Bundle)
    (hrespells : bundle.loader.Respells respelling other) :
    bundle.Agrees (bundle.respell respelling other) where
  entry := by simp [Bundle.respell, Path.same, respelling.parts_spell]
  modules := by
    rw [Bundle.respell, List.forall₂_map_right_iff, List.forall₂_same]
    intro module _
    exact ⟨by simp [Module.respell, Path.same, respelling.parts_spell], rfl⟩
  statements := by
    rw [Bundle.respell, List.forall₂_map_right_iff, List.forall₂_same]
    intro statement _
    exact ⟨by simp [StatementId.respell, Path.same, respelling.parts_spell],
      rfl⟩
  renames := by
    rw [Bundle.respell, List.forall₂_map_right_iff, List.forall₂_same]
    exact fun module _ => Names.renames_respell module.path
  externals := rfl
  exports := bundle.exports_respell
  output output := by
    rw [bundle.generate_respell hrespells]
    cases bundle.generate <;> simp [Except.change]

/-- Builds a bundle with further requests for modules before and after its graph
is loaded. -/
def prepareAmid (options : BundleOptions) (entry : Path)
    (before after : List Path) : Work Bundle := do
  Work.requestAll before
  let module ← Work.loadGraph (entryPath entry)
  Work.requestAll after
  Work.shaking (assemble options module)

/-- Outcomes of builds that correspond, as bundles or as errors. -/
def Corresponding (Bundles : Bundle → Bundle → Prop)
    (Errors : BundleError → BundleError → Prop) :
    EStateM.Result BundleError Session Bundle →
    EStateM.Result BundleError Session Bundle → Prop
  | .ok bundle _, .ok other _ => Bundles bundle other
  | .error error _, .error other _ => Errors error other
  | _, _ => False

theorem Corresponding.imp {Bundles Others : Bundle → Bundle → Prop}
    {Errors OtherErrors : BundleError → BundleError → Prop}
    (hbundles : ∀ bundle other, Bundles bundle other → Others bundle other)
    (herrors : ∀ error other, Errors error other → OtherErrors error other)
    {alone amid : EStateM.Result BundleError Session Bundle}
    (houtcomes : Corresponding Bundles Errors alone amid) :
    Corresponding Others OtherErrors alone amid := by
  cases alone with
  | ok bundle after =>
      cases amid with
      | ok other later => exact hbundles bundle other houtcomes
      | error error later => exact houtcomes
  | error error after =>
      cases amid with
      | ok other later => exact houtcomes
      | error other later => exact herrors error other houtcomes

/-- An operation that never asks for a module does not do so under other paths
either. -/
theorem assemble_ne_unloaded_respell {options : BundleOptions}
    {entry : Module} {graph shadow : Loader} {respelling : Respelling}
    (hrespells : graph.Respells respelling shadow)
    (hsettled : ∀ path after, assemble options entry graph
      (.ofNames .initial) ≠ .error (.unloaded path) after)
    (path : Path) (after : Shaker) :
    assemble options (entry.respell respelling) shadow (.ofNames .initial) ≠
      .error (.unloaded path) after := by
  intro hrun
  have hmirrors := assemble_respells hrespells options entry
    (.ofNames .initial)
  rw [Shaker.respell_ofNames_initial, hrun] at hmirrors
  cases hown : assemble options entry graph (.ofNames .initial) with
  | ok bundle after => rw [hown] at hmirrors; cases hmirrors
  | error failure after =>
      rw [hown] at hmirrors
      cases failure with
      | refused error => cases hmirrors
      | unloaded path => exact hsettled path after hown

/-- Of a build amid requests only the assembly is left when its graph is loaded
and the later requests change nothing. -/
theorem prepareAmid_of_loadGraph {files : Files} {resolver : Resolver}
    {path : Path} {image : Module} {shadow : Loader} {before after : List Path}
    (options : BundleOptions)
    (hload : Loading.loadGraph (entryPath path)
      ((Loader.ofFiles files resolver).afterRequests before) =
        .ok image shadow)
    (hafter : shadow.afterRequests after = shadow) :
    prepareAmid options path before after (.ofFiles files resolver) =
      Work.shaking (assemble options image) ⟨shadow, .ofNames .initial⟩ := by
  have hgraph : Work.loadGraph (entryPath path)
      ⟨(Loader.ofFiles files resolver).afterRequests before,
        .ofNames .initial⟩ = .ok image ⟨shadow, .ofNames .initial⟩ := by
    rw [Work.loadGraph, Work.loading, hload]
  have hrequests : Work.requestAll after ⟨shadow, .ofNames .initial⟩ =
      .ok PUnit.unit ⟨shadow, .ofNames .initial⟩ := by
    rw [Work.requestAll_eq, hafter]
  exact (Outcome.bind_of_ok (Work.requestAll_eq before _)).trans
    ((Outcome.bind_of_ok hgraph).trans (Outcome.bind_of_ok hrequests))

section Order

variable {files : Files} {resolver : Resolver} {path : Path} {entry : Module}
  {graph : Loader}
  (hgraph : Loading.loadGraph (entryPath path) (.ofFiles files resolver) =
    .ok entry graph)
include hgraph

/-- The graph is loaded as well if its modules were asked for before. -/
theorem loadGraph_amid (before after : List Path)
    (hcalls : ∀ call ∈ before ++ after, graph.HasAt call) :
    ∃ shadow : Loader,
      graph.Respells (.between graph shadow) shadow ∧
      ((∀ call ∈ before, ∃ outcome, (call, outcome) ∈ graph.loaded) →
        Respelling.between graph shadow = .id) ∧
      Loading.loadGraph (entryPath path)
        ((Loader.ofFiles files resolver).afterRequests before) =
          .ok (entry.respell (.between graph shadow)) shadow ∧
      shadow.afterRequests after = shadow := by
  have hreachable := Loader.Reachable.of_loadGraph hgraph
  have hfaithful := hreachable.isFaithful
  have hbefore : Loader.Shadows graph before (.ofFiles files resolver)
      ((Loader.ofFiles files resolver).afterRequests before) := by
    refine Loader.Shadows.afterRequests hfaithful hreachable.grows ?_
      fun call hcall => ⟨hcall, hcalls call (List.mem_append_left _ hcall)⟩
    exact ⟨rfl, rfl, fun _ hentry => absurd hentry List.not_mem_nil,
      fun _ hentry => absurd hentry List.not_mem_nil, fun _ _ => rfl, .nil⟩
  obtain ⟨image, shadow, hload, -, hshadows⟩ :=
    Loading.loadGraph_shadows hfaithful hbefore hgraph .refl
  have honce : shadow.HasReadOnce := by
    have hasked : Loader.Reachable files resolver
        ((Loader.ofFiles files resolver).afterRequests before) :=
      Loader.Reachable.start.afterRequests before
    have hlater := hasked.loadGraph (entryPath path)
    rw [Loading.leave_of_ok hload] at hlater
    exact hlater.hasReadOnce
  have hrespells := hshadows.respells hfaithful hreachable.hasReadOnce honce
  refine ⟨shadow, hrespells,
    hshadows.between_eq_id hreachable.hasReadOnce, ?_, ?_⟩
  · have himage := Loader.module_eq_ok_iff.mp (Loading.loadGraph_eq_ok hload)
    have hentry := Loader.module_eq_ok_iff.mp (Loading.loadGraph_eq_ok hgraph)
    rw [hshadows.find?_eq hfaithful, hentry] at himage
    rw [hload, ← Except.ok.inj (Option.some.inj himage)]
  · refine Loader.afterRequests_of_known fun call hcall hnone => ?_
    obtain ⟨module, hmodule, -⟩ :=
      hcalls call (List.mem_append_right _ hcall)
    rw [Loader.module_eq_ok_iff, hshadows.covers call hnone] at hmodule
    cases hmodule

/-- A build amid other requests does the same under the paths that the modules
are known by then. -/
theorem prepareAmid_eq (options : BundleOptions) (before after : List Path)
    (hcalls : ∀ call ∈ before ++ after, graph.HasAt call) :
    ∃ (shadow : Loader) (respelling : Respelling),
      graph.Respells respelling shadow ∧
      ((∀ call ∈ before, ∃ outcome, (call, outcome) ∈ graph.loaded) →
        respelling = .id) ∧
      Corresponding
        (fun bundle other =>
          bundle.loader = graph ∧ other = bundle.respell respelling shadow)
        (fun error other => other = error.respell respelling)
        (prepare options path (.ofFiles files resolver))
        (prepareAmid options path before after (.ofFiles files resolver)) := by
  obtain ⟨shadow, hrespells, hown, hload, hafter⟩ :=
    loadGraph_amid hgraph before after hcalls
  have hreachable := Loader.Reachable.of_loadGraph hgraph
  obtain ⟨hentry, hcomplete⟩ := Loading.loadGraph_isComplete hgraph
  have hsettled :=
    assemble_ne_unloaded hreachable.isFaithful hentry hcomplete options
  have hprepare : prepare options path (.ofFiles files resolver) =
      Work.shaking (assemble options entry) ⟨graph, .ofNames .initial⟩ := by
    refine Outcome.bind_of_ok ?_
    rw [Work.loadGraph, Work.loading, Session.ofFiles, hgraph]
  have hmirrors :=
    assemble_respells hrespells options entry (.ofNames .initial)
  rw [Shaker.respell_ofNames_initial] at hmirrors
  refine ⟨shadow, .between graph shadow, hrespells, hown, ?_⟩
  rw [hprepare, prepareAmid_of_loadGraph options hload hafter,
    Work.shaking_of_settled hsettled,
    Work.shaking_of_settled (assemble_ne_unloaded_respell hrespells hsettled),
    hmirrors]
  cases hrun : assemble options entry graph (.ofNames .initial) with
  | ok bundle after =>
      obtain ⟨_, _, _, hbundle⟩ := assemble_eq_ok hrun
      exact ⟨by rw [hbundle], rfl⟩
  | error failure after =>
      cases failure with
      | refused error => rfl
      | unloaded path => exact absurd hrun (hsettled path after)

end Order

/-- Whatever modules of a graph were asked for before it was loaded, and by
whatever paths to them, the bundle of the graph agrees with the one that is built
without that.  It is the same bundle if they were asked for by their own paths. -/
theorem prepare_amid_requests {files : Files} {resolver : Resolver}
    {path : Path} {entry : Module} {graph : Loader}
    (hgraph : Loading.loadGraph (entryPath path) (.ofFiles files resolver) =
      .ok entry graph)
    (options : BundleOptions) (before after : List Path)
    (hcalls : ∀ call ∈ before ++ after, graph.HasAt call) :
    let alone := prepare options path (.ofFiles files resolver)
    let amid := prepareAmid options path before after (.ofFiles files resolver)
    Corresponding Agrees
      (fun error other => ∃ respelling : Respelling,
        other = error.respell respelling) alone amid ∧
    ((∀ call ∈ before, ∃ module ∈ graph.modules, module.path = call) →
      Corresponding (fun bundle other =>
        other = { bundle with loader := other.loader } ∧
          other.generate = bundle.generate) (fun error other => other = error)
        alone amid) := by
  obtain ⟨shadow, respelling, hrespells, hown, houtcomes⟩ :=
    prepareAmid_eq hgraph options before after hcalls
  have hreachable := Loader.Reachable.of_loadGraph hgraph
  constructor
  · refine houtcomes.imp ?_ fun error other herror => ⟨respelling, herror⟩
    rintro bundle other ⟨rfl, rfl⟩
    exact bundle.agrees_respell hrespells
  · intro hpaths
    obtain rfl := hown fun call hcall => by
      obtain ⟨module, hmodule, rfl⟩ := hpaths call hcall
      simp only [Loader.modules, List.mem_filterMap,
        Except.toOption_eq_some_iff] at hmodule
      obtain ⟨kept, hkept, houtcome⟩ := hmodule
      have hread := hreachable.isFaithful kept hkept
      rw [houtcome] at hread
      rw [(Loader.readModule_eq_ok hread.symm).1]
      exact ⟨_, hkept⟩
    refine houtcomes.imp ?_ fun error other herror =>
      herror.trans error.respell_id
    rintro bundle other ⟨rfl, rfl⟩
    rw [bundle.respell_id]
    exact ⟨rfl, generate_of_respells_id hrespells⟩

/-- A module that imports two others. -/
def importingTwo : Files := .ofList
  [(⟨"/m.js"⟩, "import { x } from './a';\nimport { y } from './b';\nf(x, y);"),
   (⟨"/a.js"⟩, "export let x = 1;"), (⟨"/b.js"⟩, "export let y = 2;")]

/-- The second module may be asked for first, and the first one by another path to
it. -/
theorem prepare_amid_requests_importingTwo :
    Corresponding Agrees
      (fun error other => ∃ respelling : Respelling,
        other = error.respell respelling)
      (prepare .standard ⟨"/m.js"⟩ (.ofFiles importingTwo .plain))
      (prepareAmid .standard ⟨"/m.js"⟩ [⟨"/b.js"⟩, ⟨"/./a.js"⟩] [⟨"/m.js"⟩]
        (.ofFiles importingTwo .plain)) ∧
    Corresponding
      (fun bundle other => other = { bundle with loader := other.loader } ∧
        other.generate = bundle.generate) (fun error other => other = error)
      (prepare .standard ⟨"/m.js"⟩ (.ofFiles importingTwo .plain))
      (prepareAmid .standard ⟨"/m.js"⟩ [⟨"/b.js"⟩] []
        (.ofFiles importingTwo .plain)) := by
  have hfacts : Outcome.passes (Loading.loadGraph (entryPath ⟨"/m.js"⟩))
      (.ofFiles importingTwo .plain) (fun _ graph =>
        [⟨"/b.js"⟩, ⟨"/./a.js"⟩, ⟨"/m.js"⟩].all (fun call =>
          (graph.module call).toOption.isSome) &&
        (graph.modules.map (·.path)).contains ⟨"/b.js"⟩) = true := by
    decide +kernel
  obtain ⟨entry, graph, hgraph, hfacts⟩ := Outcome.exists_of_passes hfacts
  simp only [Bool.and_eq_true, List.all_eq_true, Option.isSome_iff_exists,
    Except.toOption_eq_some_iff, List.contains_iff_mem, List.mem_map] at hfacts
  obtain ⟨hknown, module, hmodule, hpath⟩ := hfacts
  have hreachable := Loader.Reachable.of_loadGraph hgraph
  have hasAt : ∀ call ∈ ([⟨"/b.js"⟩, ⟨"/./a.js"⟩, ⟨"/m.js"⟩] : List Path),
      graph.HasAt call := fun call hcall =>
    (hknown call hcall).elim fun _ hfound => Loader.hasAt_of_ofList
      hreachable.isFaithful hreachable.grows.files_eq hfound
  refine ⟨(prepare_amid_requests hgraph .standard [⟨"/b.js"⟩, ⟨"/./a.js"⟩]
    [⟨"/m.js"⟩] hasAt).1, ?_⟩
  refine (prepare_amid_requests hgraph .standard [⟨"/b.js"⟩] [] ?_).2 ?_
  · exact fun call hcall => hasAt call (List.mem_of_mem_take (i := 1) hcall)
  · exact fun call hcall =>
      ⟨module, hmodule, hpath.trans (List.mem_singleton.mp hcall).symm⟩

end Bundle

end Bundler
