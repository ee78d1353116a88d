import Bundler.Build.Plan
import Bundler.Proofs.Build.Assembled
import Bundler.Proofs.Respelling.Shake

/-!
# Bundles under other spellings

A bundle of modules that are known by other paths has the same modules in the
same order, keeps the same statements, writes names in the same way, and so has
the same text.
-/

namespace Bundler

variable (respelling : Respelling)

def ModuleWalk.respell (walk : ModuleWalk) : ModuleWalk :=
  { entered := walk.entered.map respelling.spell
    modules := walk.modules.map (Module.respell respelling)
    externals := walk.externals }

/-- A bundle of modules that are known by other paths, in another loader. -/
def Bundle.respell (other : Loader) (bundle : Bundle) : Bundle :=
  { options := bundle.options
    loader := other
    entry := respelling.spell bundle.entry
    modules := bundle.modules.map (Module.respell respelling)
    externals := bundle.externals
    statements := bundle.statements.map (StatementId.respell respelling)
    namespaces := bundle.namespaces.map (respellObject respelling)
    bindings := bundle.bindings.map (respellFound respelling)
    exports := bundle.exports.map (respellExport respelling)
    names := bundle.names.respell respelling }

def Chunk.respell (chunk : Chunk) : Chunk :=
  { chunk with module := respelling.spell chunk.module }

variable {respelling} {loader other : Loader}

section Walk

variable (hrespells : loader.Respells respelling other)
include hrespells

theorem ModuleWalk.visit_respell (steps : Nat) (module : Module)
    (walk : ModuleWalk) :
    visit other steps (module.respell respelling) (walk.respell respelling) =
      Except.change (LinkFailure.respell respelling)
        (ModuleWalk.respell respelling) (visit loader steps module walk) := by
  induction steps generalizing module walk with
  | zero => rfl
  | succ steps ih =>
      have henter : { walk.respell respelling with
          entered := (module.respell respelling).path ::
            (walk.respell respelling).entered } = ModuleWalk.respell respelling
              { walk with entered := module.path :: walk.entered } := rfl
      have hdependencies : (module.respell respelling).dependencies =
        module.dependencies := rfl
      rw [visit, visit, hdependencies, henter]
      refine Except.bind_change (Except.foldlM_change ?_ _) fun walk => ?_
      · rintro ⟨source, dependency⟩ _ walk
        cases dependency with
        | external specifier => rfl
        | internal path =>
            refine Except.bind_change (hrespells.module path)
              fun dependency => ?_
            have hmet : (walk.respell respelling).entered.contains
                (dependency.respell respelling).path =
                  walk.entered.contains dependency.path := by
              rw [Bool.eq_iff_iff, List.contains_iff_mem,
                List.contains_iff_mem]
              exact List.mem_map_of_injective respelling.injective
            rw [hmet]
            split
            · rfl
            · exact ih dependency walk
      · simp only [Except.change, pure, Except.pure, ModuleWalk.respell,
          List.map_append, List.map_singleton]

theorem ModuleWalk.ofEntry_respell (entry : Module) :
    ofEntry other (entry.respell respelling) =
      Except.change (LinkFailure.respell respelling)
        (ModuleWalk.respell respelling) (ofEntry loader entry) := by
  rw [ofEntry, ofEntry, hrespells.length]
  exact visit_respell hrespells _ entry start

end Walk

namespace Bundle

section Order

variable (included : List StatementId) (modules : List Module)

theorem keptIn_respell (module : Module) :
    keptIn (included.map (StatementId.respell respelling))
      (module.respell respelling) = keptIn included module := by
  have hown : ((fun statement : StatementId =>
      decide (statement.1 = (module.respell respelling).path)) ∘
        StatementId.respell respelling) =
      fun statement => decide (statement.1 = module.path) := by
    funext statement
    simp [StatementId.respell, Module.respell]
  simp only [keptIn, List.filter_map, List.map_map, hown]
  rfl

theorem inOrder_respell :
    inOrder (modules.map (Module.respell respelling))
      (included.map (StatementId.respell respelling)) =
        (inOrder modules included).map (StatementId.respell respelling) := by
  simp only [inOrder, List.flatMap_map, keptIn_respell, List.map_flatMap,
    List.map_map]
  rfl

theorem withContents_respell :
    withContents (modules.map (Module.respell respelling))
      (included.map (StatementId.respell respelling)) =
        (withContents modules included).map fun included =>
          (included.1.respell respelling, included.2) := by
  simp only [withContents, List.flatMap_map, keptIn_respell,
    List.map_flatMap, List.map_filterMap, Option.map_map]
  rfl

theorem contextOf_respell (walk : ModuleWalk) (shaker : Shaker) :
    contextOf (walk.respell respelling) (shaker.respell respelling) =
      (contextOf walk shaker).respell respelling := by
  have hnamespaces : (shaker.respell respelling).namespaces.map (·.1) =
      (shaker.namespaces.map (·.1)).map respelling.spell := by
    simp only [Shaker.respell, List.map_map]
    rfl
  rw [contextOf, hnamespaces]
  simp only [ModuleWalk.respell, Shaker.respell, withContents_respell]
  rfl

end Order

/-- The same bundle is assembled. -/
theorem assemble_respells (hrespells : loader.Respells respelling other)
    (options : BundleOptions) (entry : Module) :
    Shaking.Respells respelling (Bundle.respell respelling other)
      (assemble options entry loader)
      (assemble options (entry.respell respelling) other) := by
  rw [assemble, assemble]
  refine .bind (Shaking.ofExcept_respells
    (ModuleWalk.ofEntry_respell hrespells entry)) fun walk => ?_
  refine .bind (Shaking.shake_respells hrespells entry options.exports)
    fun exports => .bind .get fun shaker => ?_
  have hsettled : (shaker.respell respelling).names.deconflict
      (contextOf (walk.respell respelling) (shaker.respell respelling)) =
        (shaker.names.deconflict (contextOf walk shaker)).respell
          respelling := by
    rw [contextOf_respell]
    exact Names.deconflict_respell _ _
  intro after
  refine congrArg (EStateM.Result.ok · (after.respell respelling)) ?_
  rw [Bundle.mk.injEq]
  exact ⟨rfl, rfl, rfl, rfl, rfl, inOrder_respell _ _, rfl, rfl, rfl,
    hsettled⟩

section Text

variable (bundle : Bundle)
  (hrespells : bundle.loader.Respells respelling other)

section Names

include hrespells

theorem writtenName_respell (module : Module) (name : String) :
    (bundle.respell respelling other).writtenName (module.respell respelling)
      name = Except.change (BundleError.respell respelling)
        (fun written => written) (bundle.writtenName module name) := by
  have himports : (module.respell respelling).imports = module.imports := rfl
  rw [writtenName, writtenName, himports]
  split
  · exact congrArg Except.ok (Names.written_respell module.path name)
  · have hfound : (bundle.respell respelling other).bindings.find?
        (·.1 = ((module.respell respelling).path, name)) =
          (bundle.bindings.find? (·.1 = (module.path, name))).map
            (respellFound respelling) :=
      find?_respellFound bundle.bindings module.path name
    rw [hfound]
    cases bundle.bindings.find? (·.1 = (module.path, name)) with
    | some found =>
        exact congrArg Except.ok (Names.expression_respell found.2)
    | none =>
        have hresolved : (bundle.respell respelling other).loader.resolveName
            (module.respell respelling) name =
              Except.change (LinkFailure.respell respelling)
                (Binding.respell respelling)
                (bundle.loader.resolveName module name) :=
          hrespells.resolveName module name
        simp only [Option.map_none, hresolved]
        cases bundle.loader.resolveName module name with
        | ok binding =>
            exact congrArg Except.ok (Names.expression_respell binding)
        | error failure => cases failure <;> rfl

theorem replacements_respell (module : Module) (start stop : Nat)
    (references : List Reference) :
    (bundle.respell respelling other).replacements
      (module.respell respelling) start stop references =
        Except.change (BundleError.respell respelling) (fun found => found)
          (bundle.replacements module start stop references) := by
  induction references generalizing start with
  | nil => rfl
  | cons reference references ih =>
      rw [replacements, replacements]
      split
      · exact ih start
      · refine Except.bind_change (bundle.writtenName_respell hrespells module
          reference.name) fun written => ?_
        split
        · exact ih start
        · exact Except.bind_change (ih reference.span.stop) fun _ => rfl

theorem statementText_respell (module : Module) (statement : Statement) :
    (bundle.respell respelling other).statementText (module.respell respelling)
      statement = Except.change (BundleError.respell respelling)
        (fun text => text) (bundle.statementText module statement) := by
  have hwritten : (bundle.respell respelling other).names.written
      (module.respell respelling).path defaultSlot =
        bundle.names.written module.path defaultSlot :=
    Names.written_respell module.path defaultSlot
  rw [statementText, statementText, hwritten]
  refine Except.bind_change (bundle.replacements_respell hrespells module _ _
    statement.references) fun found => ?_
  split <;> rfl

theorem statementChunk_respell (module : Module) (statement : Statement) :
    (bundle.respell respelling other).statementChunk
      (module.respell respelling) statement =
        Except.change (BundleError.respell respelling)
          (Chunk.respell respelling)
          (bundle.statementChunk module statement) := by
  rw [statementChunk, statementChunk]
  exact Except.bind_change (bundle.statementText_respell hrespells module
    statement) fun _ => rfl

end Names

theorem namespaceChunk_respell (module : Module)
    (exports : List (String × Binding)) :
    (bundle.respell respelling other).namespaceChunk
      (module.respell respelling) (exports.map (respellExport respelling)) =
        (bundle.namespaceChunk module exports).respell respelling := by
  have hgetter : (bundle.respell respelling other).getter ∘
      respellExport respelling = bundle.getter := by
    funext exported
    have hexpression : (bundle.respell respelling other).names.expression
        (exported.2.respell respelling) =
          bundle.names.expression exported.2 :=
      Names.expression_respell exported.2
    rw [Function.comp_apply, getter, getter, respellExport, hexpression]
  have hwritten : (bundle.respell respelling other).names.written
      (module.respell respelling).path namespaceSlot =
        bundle.names.written module.path namespaceSlot :=
    Names.written_respell module.path namespaceSlot
  rw [namespaceChunk, namespaceChunk, List.map_map, hgetter, hwritten,
    List.isEmpty_map]
  rfl

theorem moduleChunks_respell
    (hrespells : bundle.loader.Respells respelling other) (module : Module) :
    (bundle.respell respelling other).moduleChunks
      (module.respell respelling) =
        Except.change (BundleError.respell respelling)
          (List.map (Chunk.respell respelling))
          (bundle.moduleChunks module) := by
  have hkept : keptIn (bundle.respell respelling other).statements
      (module.respell respelling) = keptIn bundle.statements module :=
    keptIn_respell bundle.statements module
  have hobject : (bundle.respell respelling other).namespaces.find?
      (·.1 = (module.respell respelling).path) =
        (bundle.namespaces.find? (·.1 = module.path)).map
          (respellObject respelling) := by
    rw [Bundle.respell, List.find?_map]
    congr 2
    funext object
    simp [respellObject, Module.respell]
  rw [moduleChunks, moduleChunks, hkept, hobject]
  have hstatements : ∀ statements : List Statement,
      statements.mapM ((bundle.respell respelling other).statementChunk
        (module.respell respelling)) =
          Except.change (BundleError.respell respelling)
            (List.map (Chunk.respell respelling))
            (statements.mapM (bundle.statementChunk module)) := by
    intro statements
    conv_lhs => rw [← List.map_id statements]
    exact Except.mapM_change
      (bundle.statementChunk_respell hrespells module) statements
  refine Except.bind_change (hstatements _) fun chunks => ?_
  cases bundle.namespaces.find? (·.1 = module.path) with
  | none => rfl
  | some object =>
      simp only [Option.map_some, respellObject]
      rw [namespaceChunk_respell]
      simp only [pure, Except.pure, Except.change, List.map_append,
        List.map_singleton]

theorem join_respell (chunks : List Chunk) :
    (bundle.respell respelling other).join
      (chunks.map (Chunk.respell respelling)) = bundle.join chunks := by
  induction chunks with
  | nil => rfl
  | cons before chunks ih =>
      cases chunks with
      | nil => rfl
      | cons after chunks =>
          have hbreaks : (bundle.respell respelling other).lineBreaks
              (before.respell respelling) (after.respell respelling) =
                bundle.lineBreaks before after := by
            simp only [lineBreaks, Chunk.respell, respelling.spell_inj]
            rfl
          rw [List.map_cons, List.map_cons, join, join, hbreaks]
          rw [List.map_cons] at ih
          rw [ih]
          rfl

/-- The exports are written as the same expressions. -/
theorem exports_respell :
    (bundle.respell respelling other).exports.map (fun exported =>
        (exported.1,
          (bundle.respell respelling other).names.expression exported.2)) =
      bundle.exports.map fun exported =>
        (exported.1, bundle.names.expression exported.2) := by
  simp only [Bundle.respell, List.map_map]
  apply List.map_congr_left
  intro exported _
  exact congrArg (Prod.mk exported.1) (Names.expression_respell exported.2)

/-- The same text is written, or it cannot be for the same reason. -/
theorem generate_respell
    (hrespells : bundle.loader.Respells respelling other) :
    (bundle.respell respelling other).generate =
      Except.change (BundleError.respell respelling) (fun output => output)
        bundle.generate := by
  rw [generate, generate]
  refine Except.bind_change (Except.mapM_change
    (bundle.moduleChunks_respell hrespells) bundle.modules) fun chunks => ?_
  rw [← List.map_flatten, join_respell, exports_respell]
  rfl

end Text

end Bundle

end Bundler
