import Bundler.Build.Output
import Bundler.Proofs.Analysis.Placement
import Bundler.Proofs.Build.Assembled
import Bundler.Proofs.Build.Emission
import Bundler.Proofs.Build.Freshness
import Bundler.Proofs.Shake.Objects

/-!
# Names with something behind them

What is written for a reference is captured if a function or block around the
reference binds the name that it starts with.  A name that was given to settle
a conflict is never captured, nor is the name that the reference has itself.
What remains is a name that the binding arrived with: it came by an alias, for
a slot or for a module that is not bundled, and nothing looked for it in the
functions and blocks that it is written into.

What is written in a bundle for a reference, an export or a property of an object
stands for something that the bundle has: a definition that is kept, an object
that is emitted with just the exports of its module, or a module that is listed
as not bundled.  Inclusion follows what statements read, which leaves out what a
statement declares itself.  Names are looked up again when they are written, and
then an import comes first, even before a declaration of the statement.
-/

namespace Bundler

/-! ### Captured names -/

namespace Bundle

/-- What a name in a module refers to. -/
def referent (bundle : Bundle) (module : Module) (name : String) :
    Except BundleError Binding :=
  if !module.imports.contains name then .ok (.definition module.path name)
  else
    match bundle.bindings.find? (·.1 = (module.path, name)) with
    | some (_, binding) => .ok binding
    | none =>
        match bundle.loader.resolveName module name with
        | .ok binding => .ok binding
        | .error (.refused error) => .error error
        | .error (.unloaded path) => .error (.unsettled path)

/-- A name is written as the expression for what it refers to. -/
theorem writtenName_eq (bundle : Bundle) (module : Module) (name : String) :
    bundle.writtenName module name =
      (bundle.referent module name).map bundle.names.expression := by
  rw [writtenName, referent]
  split
  · rfl
  · cases bundle.bindings.find? (·.1 = (module.path, name)) with
    | some entry => rfl
    | none =>
        cases bundle.loader.resolveName module name with
        | ok binding => rfl
        | error failure => cases failure <;> rfl

/-- A function or block around a reference binds the name that is written in
its place, or that starts what is written. -/
def Captures (bundle : Bundle) (module : Module) (placed : PlacedReference)
    (binding : Binding) : Prop :=
  module.tree.BindsAround placed.scope (bundle.names.leading binding)

/-- What is written in place of a reference is captured just if it starts with
a name that its binding arrived with, this is not the name of the reference
itself, and a function or block around the reference binds it. -/
theorem captures_iff {files : Files} {resolver : Resolver}
    {options : BundleOptions} {path : Path} {bundle : Bundle}
    {module : Module} {id : Nat} {statement : Statement}
    (hbuild : build files resolver options path = .ok bundle)
    (hmodule : module ∈ bundle.modules)
    (hstatement : module.statements[id]? = some statement) :
    ((module.placedReferences id).map (·.reference)).Perm
        statement.references ∧
      ∀ placed ∈ module.placedReferences id, ∀ binding,
        bundle.referent module placed.reference.name = .ok binding →
        (∃ rest, bundle.writtenName module placed.reference.name =
            .ok (bundle.names.leading binding ++ rest) ∧
          (rest = "" ∨ rest.toList.head? = some '.' ∨
            rest.toList.head? = some '[')) ∧
        (bundle.Captures module placed binding ↔
          ∃ name ∈ bundle.names.arriving bundle.modules binding,
            bundle.names.leading binding = name ∧
            name ≠ placed.reference.name ∧
            module.tree.BindsAround placed.scope name) := by
  obtain ⟨hreachable, _, entry, walk, shaker, hassembled⟩ :=
    build_eq_ok hbuild
  have hfaithful := hreachable.isFaithful
  have hloaded := hassembled.module_loaded hfaithful hmodule
  obtain ⟨hrecorded, hfree⟩ :=
    Module.placedReferences_spec hfaithful hloaded hstatement
  have hwritten : Names.initial.SameWritten shaker.names :=
    (Shaking.shake_does hfaithful hassembled.loaded
      hassembled.shaken).2.1.written
  have hapart : bundle.names.KeepsApart bundle.modules
      (bundle.modules.flatMap (·.tree.nestedNames)) := by
    have hsettled : (shaker.names.deconflict
        (contextOf walk shaker)).KeepsApart (contextOf walk shaker).modules
        ((contextOf walk shaker).modules.flatMap (·.tree.nestedNames)) :=
      Names.keepsApart_deconflict hwritten
    rw [hassembled.settled, hassembled.modules]
    exact hsettled
  refine ⟨hrecorded, fun placed hplaced binding hreferent => ⟨?_, ?_⟩⟩
  · obtain ⟨rest, hexpression, hrest⟩ := bundle.names.expression_eq binding
    refine ⟨rest, ?_, hrest⟩
    rw [writtenName_eq, hreferent, ← hexpression]
    rfl
  · constructor
    · intro hcaptured
      have hnested : bundle.names.leading binding ∈
          bundle.modules.flatMap (·.tree.nestedNames) :=
        List.mem_flatMap.mpr ⟨module, hmodule, hcaptured.mem_nestedNames⟩
      have harrived : bundle.names.leading binding ∈
          bundle.names.arriving bundle.modules binding :=
        (hapart.leading binding).resolve_right (not_not_intro hnested)
      refine ⟨_, harrived, rfl, ?_, hcaptured⟩
      intro hown
      apply hfree placed hplaced
      rw [← hown]
      exact hcaptured
    · rintro ⟨_, _, rfl, _, hbinds⟩
      exact hbinds

/-- A module whose export another one reads under an alias, within a function
that takes an argument of the name `local`. -/
def aliasedWithin (parameter : String) : Files := .ofList
  [(⟨"/a.js"⟩, "export let x = 1;"),
   (⟨"/m.js"⟩, "import { x as y } from './a';\n(" ++ parameter ++ " => y)();")]

/-- A parameter of another name captures nothing. -/
theorem captures_iff_apart :
    ∃ bundle, build (aliasedWithin "z") .plain .standard ⟨"/m.js"⟩ =
        .ok bundle ∧
      ∃ module ∈ bundle.modules, module.path = ⟨"/m.js"⟩ ∧
        ∃ placed ∈ module.placedReferences 1, ∃ binding,
          bundle.referent module placed.reference.name = .ok binding ∧
          ¬ bundle.Captures module placed binding := by
  have hfacts : ((build (aliasedWithin "z") .plain .standard
      ⟨"/m.js"⟩).toOption.any fun bundle =>
        bundle.modules.any fun module =>
          decide (module.path = ⟨"/m.js"⟩) && module.statements[1]?.isSome &&
          (module.placedReferences 1).any fun placed =>
            (bundle.referent module placed.reference.name).toOption.any
              fun binding =>
                decide (∀ name ∈ bundle.names.arriving bundle.modules binding,
                  name ∉ module.tree.nestedNames)) = true := by
    decide +kernel
  obtain ⟨bundle, hbuild, hfacts⟩ := Except.exists_of_any_toOption hfacts
  simp only [List.any_eq_true, Bool.and_eq_true, decide_eq_true_eq] at hfacts
  obtain ⟨module, hmodule, ⟨hpath, hsome⟩, placed, hplaced, hfacts⟩ := hfacts
  obtain ⟨binding, hreferent, hfacts⟩ := Except.exists_of_any_toOption hfacts
  have hunbound : ∀ name ∈ bundle.names.arriving bundle.modules binding,
      name ∉ module.tree.nestedNames := by simpa using hfacts
  obtain ⟨statement, hstatement⟩ := Option.isSome_iff_exists.mp hsome
  have hcaptures := ((captures_iff hbuild hmodule hstatement).2 placed hplaced
    binding hreferent).2
  refine ⟨bundle, hbuild, module, hmodule, hpath, placed, hplaced, binding,
    hreferent, ?_⟩
  rw [hcaptures]
  rintro ⟨name, harriving, _, _, hbinds⟩
  exact hunbound name harriving hbinds.mem_nestedNames

/-- A parameter that has the name of the export captures what is written for the
alias. -/
theorem captures_parameter :
    ∃ bundle, build (aliasedWithin "x") .plain .standard ⟨"/m.js"⟩ =
        .ok bundle ∧
      (∃ output, bundle.generate = .ok output ∧
        output.code = "let x = 1;\n(x => x)();\n") ∧
      ∃ module ∈ bundle.modules,
        (module.path, 1) ∈ bundle.statements ∧
        ∃ placed ∈ module.placedReferences 1, ∃ binding,
          bundle.referent module placed.reference.name = .ok binding ∧
          bundle.Captures module placed binding := by
  have hfacts : ((build (aliasedWithin "x") .plain .standard
      ⟨"/m.js"⟩).toOption.any fun bundle =>
        (bundle.generate.toOption.any
          (·.code = "let x = 1;\n(x => x)();\n")) &&
        bundle.modules.any fun module =>
          bundle.statements.contains (module.path, 1) &&
          (module.placedReferences 1).any fun placed =>
            (bundle.referent module placed.reference.name).toOption.any
              fun binding =>
                (module.tree.findScope? placed.scope
                  (bundle.names.leading binding)).any
                    (· ≠ ScopeTree.root)) = true := by
    decide +kernel
  obtain ⟨bundle, hbuild, hfacts⟩ := Except.exists_of_any_toOption hfacts
  simp only [List.any_eq_true, Bool.and_eq_true, List.contains_iff_mem]
    at hfacts
  obtain ⟨hcode, module, hmodule, hkept, placed, hplaced, hfacts⟩ := hfacts
  obtain ⟨output, hgenerate, hcode⟩ := Except.exists_of_any_toOption hcode
  obtain ⟨binding, hreferent, hfound⟩ := Except.exists_of_any_toOption hfacts
  obtain ⟨hreachable, _, entry, walk, shaker, hassembled⟩ :=
    build_eq_ok hbuild
  have hordered := Module.isOrdered_tree hreachable.isFaithful
    (hassembled.module_loaded hreachable.isFaithful hmodule)
  exact ⟨bundle, hbuild, ⟨output, hgenerate, by simpa using hcode⟩, module,
    hmodule, hkept, placed, hplaced, binding, hreferent,
    hordered.bindsAround_iff.mpr hfound⟩

end Bundle

/-! ### What is behind a name -/

namespace Module

/-- A module neither imports nor declares a name. -/
def Lacks (module : Module) (name : String) : Prop :=
  module.imports.contains name = false ∧
    module.definitions.contains name = false

/-- A statement of a module declares a name that the module imports. -/
def Redeclares (module : Module) (statement : Statement) (name : String) :
    Prop :=
  module.imports.contains name = true ∧ name ∈ statement.defines

end Module

namespace Bundle

variable {bundle : Bundle} {output : Output}

/-- What a binding stands for is there. -/
def Backs (bundle : Bundle) (output : Output) : Binding → Prop
  | .definition path name => ∃ module ∈ bundle.modules, module.path = path ∧
      ∃ id statement, (path, id) ∈ bundle.statements ∧
        module.statements[id]? = some statement ∧ name ∈ statement.defines
  | .exportsOf path => ∃ module ∈ bundle.modules, module.path = path ∧
      ∃ exports chunks, bundle.chunks = .ok chunks ∧
        bundle.namespaceChunk module exports ∈ chunks ∧
        bundle.loader.exportNames module = .ok (exports.map (·.1)) ∧
        (exports.map (·.1)).Nodup
  | .external specifier _ =>
      ⟨specifier, bundle.names.writtenExternal specifier⟩ ∈ output.externals

/-- An output lists the modules that are not bundled with their variables, and the
exports as they are written. -/
theorem generate_lists (hgenerate : bundle.generate = .ok output) :
    output.externals = bundle.externalInfos ∧
      output.exports = bundle.exports.map fun exported =>
        (exported.1, bundle.names.expression exported.2) := by
  rw [generate] at hgenerate
  obtain ⟨parts, _, hgenerate⟩ := Except.bind_eq_ok_iff.mp hgenerate
  obtain rfl := Except.ok.inj hgenerate
  exact ⟨rfl, rfl⟩

/-- The object of a module is emitted if its exports are used. -/
theorem namespaceChunk_mem {module : Module}
    {exports : List (String × Binding)}
    (hgenerate : bundle.generate = .ok output)
    (hmodule : module ∈ bundle.modules)
    (hfind : bundle.namespaces.find? (·.1 = module.path) =
      some (module.path, exports)) :
    ∃ chunks, bundle.chunks = .ok chunks ∧
      bundle.namespaceChunk module exports ∈ chunks := by
  obtain ⟨parts, hparts, _⟩ := generate_code hgenerate
  have hchunks : bundle.chunks = .ok parts.flatten := by
    rw [chunks, hparts]
    rfl
  obtain ⟨part, hpart, hwritten⟩ :=
    Except.exists_of_mapM_eq_ok hparts hmodule
  rw [moduleChunks_eq, hfind] at hwritten
  obtain ⟨texts, _, rfl⟩ := Except.map_eq_ok_iff.mp hwritten
  refine ⟨parts.flatten, hchunks, List.mem_flatten.mpr ⟨_, hpart, ?_⟩⟩
  exact List.mem_append_right texts List.mem_cons_self

section Assembled

variable {entry module : Module} {walk : ModuleWalk} {shaker : Shaker}
  (hfaithful : bundle.loader.IsFaithful)
  (hassembled : bundle.IsAssembled entry walk shaker)
include hfaithful hassembled

omit hfaithful in
/-- The objects of a bundle have one export for each name that their modules
export. -/
theorem IsAssembled.isFull {object : Path × List (String × Binding)}
    (hobject : object ∈ bundle.namespaces) :
    Shaking.IsFull bundle.loader object := by
  obtain ⟨added, hadded, hfull⟩ :=
    Shaking.shake_filling entry bundle.options.exports hassembled.shaken
  rw [hassembled.namespaces, hadded] at hobject
  rcases List.mem_append.mp hobject with hstart | hobject
  · exact absurd hstart List.not_mem_nil
  · exact (hfull object hobject).1

/-- What a module of the bundle leads to is there if all that is behind it is
needed. -/
theorem IsAssembled.backs (hgenerate : bundle.generate = .ok output)
    (hmodule : module ∈ bundle.modules) {binding : Binding}
    (hleads : bundle.loader.LeadsTo module binding)
    (hneeded : ∀ need, Shaking.Behind bundle.loader binding need →
      Shaking.Needed bundle.loader
        (Shaking.Asked bundle.loader entry bundle.options.exports) need) :
    bundle.Backs output binding := by
  have hpostorder := hassembled.isPostorder hfaithful
  have hwithin : ∀ {other : Module}, bundle.loader.Reaches module other →
      other ∈ bundle.modules := fun hreaches =>
    (hpostorder.reached _).mpr
      (((hpostorder.reached module).mp hmodule).trans hreaches)
  cases hleads with
  | @definition other name id hreaches _ hdefinition =>
      have hother := hwithin hreaches
      have hloaded := hassembled.module_loaded hfaithful hother
      obtain ⟨statement, hstatement, hdefines, _⟩ :=
        (hfaithful.hasTables hloaded).get?_definitions_eq_some_iff.mp
          hdefinition
      have hkept : (other.path, id) ∈ bundle.statements :=
        (hassembled.mem_statements_iff hfaithful hother).mpr
          (hneeded _ (.definition hloaded hdefinition))
      exact ⟨other, hother, rfl, id, statement, hkept, hstatement, hdefines⟩
  | @exportsOf other hreaches =>
      have hother := hwithin hreaches
      have hmet : other.path ∈ bundle.namespaces.map (·.1) := by
        rw [hassembled.namespaces]
        exact (hassembled.met_iff_needed hfaithful _).mpr
          (hneeded _ .exportsOf)
      obtain ⟨⟨path, exports⟩, hfind⟩ : ∃ object,
          bundle.namespaces.find? (·.1 = other.path) = some object := by
        obtain ⟨object, hobject, hpath⟩ := List.mem_map.mp hmet
        rw [← Option.isSome_iff_exists, List.find?_isSome]
        exact ⟨object, hobject, by simpa using hpath⟩
      obtain rfl : path = other.path := by
        simpa using List.find?_some hfind
      obtain ⟨chunks, hchunks, hchunk⟩ :=
        namespaceChunk_mem hgenerate hother hfind
      obtain ⟨owner, howner, hnames⟩ :=
        hassembled.isFull (List.mem_of_find?_eq_some hfind)
      rw [hassembled.module_loaded hfaithful hother] at howner
      obtain rfl := Except.ok.inj howner
      exact ⟨other, hother, rfl, exports, chunks, hchunks, hchunk, hnames,
        bundle.loader.nodup_exportNames hnames⟩
  | external hreaches hexternal =>
      have hlisted :=
        hassembled.mem_externals hfaithful (hwithin hreaches) hexternal
      rw [Backs, (generate_lists hgenerate).1]
      exact List.mem_map.mpr ⟨_, hlisted, rfl⟩

/-- What a name of a module is looked up as is what it refers to. -/
theorem IsAssembled.resolveName_of_referent (hmodule : module ∈ bundle.modules)
    {name : String} {binding : Binding}
    (himport : module.imports.contains name = true)
    (hreferent : bundle.referent module name = .ok binding) :
    bundle.loader.resolveName module name = .ok binding := by
  have hloaded := hassembled.module_loaded hfaithful hmodule
  rw [referent, himport, Bool.not_true, if_neg Bool.false_ne_true]
    at hreferent
  cases hfound : bundle.bindings.find? (·.1 = (module.path, name)) with
  | some found =>
      rw [hfound] at hreferent
      obtain rfl := Except.ok.inj hreferent
      rw [hassembled.bindings] at hfound
      have hbinding : shaker.binding? module.path name = some found.2 := by
        rw [Shaker.binding?, hfound]
        rfl
      exact (hassembled.isSound hfaithful).resolved hloaded hbinding
  | none =>
      simp only [hfound] at hreferent
      cases hlookup : bundle.loader.resolveName module name with
      | ok found =>
          simp only [hlookup] at hreferent
          rw [Except.ok.inj hreferent]
      | error failure =>
          rw [hlookup] at hreferent
          cases failure <;> cases hreferent

/-- An import is never looked up as a name of the module itself. -/
theorem IsAssembled.referent_ne_own (hmodule : module ∈ bundle.modules)
    {name : String} (himport : module.imports.contains name = true) :
    bundle.referent module name ≠ .ok (.definition module.path name) := by
  intro hreferent
  have hloaded := hassembled.module_loaded hfaithful hmodule
  have hresolve :=
    hassembled.resolveName_of_referent hfaithful hmodule himport hreferent
  have hleads :=
    bundle.loader.resolveName_leadsTo hfaithful hloaded himport hresolve
  generalize hbinding : Binding.definition module.path name = binding
    at hleads
  cases hleads with
  | definition hreaches hlocal _ =>
      obtain ⟨hpath, rfl⟩ := Binding.definition.inj hbinding
      have hsame := hfaithful.module_of_reaches hloaded hreaches
      rw [← hpath, hloaded] at hsame
      rw [← Except.ok.inj hsame, himport] at hlocal
      cases hlocal
  | exportsOf => cases hbinding
  | external => cases hbinding

omit hfaithful hassembled in
theorem referent_eq_own {name : String}
    (hlocal : module.imports.contains name = false) :
    bundle.referent module name = .ok (.definition module.path name) := by
  rw [referent, hlocal]
  rfl

/-- What a kept statement refers to is there, unless its module lacks the name or
the statement declares an imported one. -/
theorem IsAssembled.backs_reference
    (hgenerate : bundle.generate = .ok output)
    (hmodule : module ∈ bundle.modules) {id : Nat} {statement : Statement}
    (hkept : (module.path, id) ∈ bundle.statements)
    (hstatement : module.statements[id]? = some statement)
    {reference : Reference} (hreference : reference ∈ statement.references)
    {binding : Binding}
    (hreferent : bundle.referent module reference.name = .ok binding) :
    bundle.Backs output binding ∨ module.Lacks reference.name ∨
      module.Redeclares statement reference.name := by
  have hloaded := hassembled.module_loaded hfaithful hmodule
  have hneeded := (hassembled.mem_statements_iff hfaithful hmodule).mp hkept
  have hrecorded := Module.reads_or_declares hfaithful hloaded
    (List.mem_of_getElem? hstatement) hreference
  cases himport : module.imports.contains reference.name with
  | true =>
      by_cases hdeclares : reference.name ∈ statement.defines
      · exact .inr (.inr ⟨himport, hdeclares⟩)
      · have hreads := hrecorded.resolve_right hdeclares
        have hresolve := hassembled.resolveName_of_referent hfaithful hmodule
          himport hreferent
        have hleads := bundle.loader.resolveName_leadsTo hfaithful hloaded
          himport hresolve
        refine .inl (hassembled.backs hfaithful hgenerate hmodule hleads ?_)
        exact fun need hbehind => .follows hneeded
          (.reads hloaded hstatement hreads (.imported himport hresolve hbehind))
  | false =>
      rw [referent_eq_own himport] at hreferent
      obtain rfl := Except.ok.inj hreferent
      rcases hrecorded with hreads | hdeclares
      · cases hdefinition : module.definitions.get? reference.name with
        | none =>
            refine .inr (.inl ⟨himport, ?_⟩)
            rw [NameMap.contains, hdefinition]
            rfl
        | some definer =>
            refine .inl (hassembled.backs hfaithful hgenerate hmodule
              (.definition .refl himport hdefinition) fun need hbehind => ?_)
            cases hbehind with
            | definition hother hfound =>
                obtain rfl := Except.ok.inj (hloaded ▸ hother)
                exact .follows hneeded (.reads hloaded hstatement hreads
                  (.definition himport hfound))
      · exact .inl ⟨module, hmodule, rfl, id, statement, hkept, hstatement,
          hdeclares⟩

/-- What a property of an object yields is there. -/
theorem IsAssembled.backs_property (hgenerate : bundle.generate = .ok output)
    {object : Path × List (String × Binding)}
    (hobject : object ∈ bundle.namespaces) {exported : String × Binding}
    (hexported : exported ∈ object.2) : bundle.Backs output exported.2 := by
  rw [hassembled.namespaces] at hobject
  obtain ⟨owner, names, howner, hnames, hname, hresolve⟩ :=
    (hassembled.isSound hfaithful).offered object hobject exported hexported
  have hmet : shaker.Met (.exportsOf object.1) :=
    List.mem_map.mpr ⟨object, hobject, rfl⟩
  obtain ⟨module, hmodule, hpath⟩ := hassembled.module_of_met hfaithful hmet
  have hloaded := hassembled.module_loaded hfaithful hmodule
  obtain rfl : module = owner := by
    rw [hpath] at hloaded
    exact Except.ok.inj (hloaded ▸ howner)
  have hleads :=
    bundle.loader.resolveExport_leadsTo hfaithful hloaded hresolve
  refine hassembled.backs hfaithful hgenerate hmodule hleads ?_
  exact fun need hbehind =>
    .follows ((hassembled.met_iff_needed hfaithful _).mp hmet)
      (.exports howner hnames hname hresolve hbehind)

/-- What an export of the bundle stands for is there. -/
theorem IsAssembled.backs_export (hgenerate : bundle.generate = .ok output)
    {exported : String × Binding} (hexported : exported ∈ bundle.exports) :
    bundle.Backs output exported.2 := by
  obtain ⟨hrequested, hresolve⟩ :=
    Shaking.shake_exports hassembled.shaken hexported
  have hentry : entry ∈ bundle.modules :=
    ((hassembled.isPostorder hfaithful).reached entry).mpr .refl
  have hleads := bundle.loader.resolveExport_leadsTo hfaithful
    hassembled.loaded hresolve
  refine hassembled.backs hfaithful hgenerate hentry hleads ?_
  exact fun need hbehind => .asked (.kept hrequested hresolve hbehind)

end Assembled

variable {files : Files} {resolver : Resolver} {options : BundleOptions}
  {path : Path}

/-- What is written for a reference of a kept statement stands for something that
is there, unless the module knows nothing of the name or the statement declares a
name that the module imports.  A name that a statement declares is written as a
name of the module just if it is not imported.  The properties of objects and the
exports stand for something that is there. -/
theorem names_backed (hbuild : build files resolver options path = .ok bundle)
    (hgenerate : bundle.generate = .ok output) :
    (∀ module ∈ bundle.modules, ∀ id statement,
      (module.path, id) ∈ bundle.statements →
      module.statements[id]? = some statement →
      ∀ reference ∈ statement.references,
        (∀ binding, bundle.referent module reference.name = .ok binding →
          bundle.writtenName module reference.name =
              .ok (bundle.names.expression binding) ∧
            (bundle.Backs output binding ∨ module.Lacks reference.name ∨
              module.Redeclares statement reference.name)) ∧
        (reference.name ∈ statement.defines →
          (bundle.referent module reference.name =
              .ok (.definition module.path reference.name) ↔
            ¬ module.Redeclares statement reference.name))) ∧
    (∀ object ∈ bundle.namespaces, ∀ exported ∈ object.2,
      bundle.Backs output exported.2) ∧
    output.exports = bundle.exports.map (fun exported =>
      (exported.1, bundle.names.expression exported.2)) ∧
    ∀ exported ∈ bundle.exports, bundle.Backs output exported.2 := by
  obtain ⟨hreachable, _, entry, walk, shaker, hassembled⟩ := build_eq_ok hbuild
  have hfaithful := hreachable.isFaithful
  refine ⟨?_, fun object hobject exported hexported =>
      hassembled.backs_property hfaithful hgenerate hobject hexported,
    (generate_lists hgenerate).2,
    fun exported hexported =>
      hassembled.backs_export hfaithful hgenerate hexported⟩
  intro module hmodule id statement hkept hstatement reference hreference
  constructor
  · intro binding hreferent
    refine ⟨?_, hassembled.backs_reference hfaithful hgenerate hmodule hkept
      hstatement hreference hreferent⟩
    rw [writtenName_eq, hreferent]
    rfl
  · intro hdeclares
    constructor
    · intro hreferent hredeclares
      exact hassembled.referent_ne_own hfaithful hmodule hredeclares.1
        hreferent
    · intro hnot
      apply referent_eq_own
      rw [← Bool.not_eq_true]
      exact fun himport => hnot ⟨himport, hdeclares⟩

/-- In a bundle of two modules in a circle, all that the object and the exports
stand for is there. -/
theorem names_backed_circular :
    ∃ bundle output, build circularObject .plain .standard ⟨"/a.js"⟩ =
        .ok bundle ∧
      bundle.generate = .ok output ∧ output.exports = [("default", "a")] ∧
      (∃ object ∈ bundle.namespaces, object.2.map (·.1) = ["y"] ∧
        ∀ exported ∈ object.2, bundle.Backs output exported.2) ∧
      ∀ exported ∈ bundle.exports, bundle.Backs output exported.2 := by
  have hfacts : ((build circularObject .plain .standard
      ⟨"/a.js"⟩).toOption.any fun bundle =>
        bundle.generate.toOption.any fun output =>
          decide (output.exports = [("default", "a")]) &&
          bundle.namespaces.any fun object =>
            decide (object.2.map (·.1) = ["y"])) = true := by
    decide +kernel
  obtain ⟨bundle, hbuild, hfacts⟩ := Except.exists_of_any_toOption hfacts
  obtain ⟨output, hgenerate, hfacts⟩ := Except.exists_of_any_toOption hfacts
  rw [Bool.and_eq_true, List.any_eq_true] at hfacts
  obtain ⟨hexports, object, hobject, hproperties⟩ := hfacts
  obtain ⟨_, hobjects, _, hbacked⟩ := names_backed hbuild hgenerate
  exact ⟨bundle, output, hbuild, hgenerate, of_decide_eq_true hexports,
    ⟨object, hobject, of_decide_eq_true hproperties,
      hobjects object hobject⟩, hbacked⟩

/-- A module with a block that declares what the module imports. -/
def redeclaring : Files := .ofList
  [(⟨"/m.js"⟩, "import \x7b x \x7d from 'ext';\n\x7b function x() \x7b\x7d \x7d")]

/-- The name that the block declares is written as the import. -/
theorem redeclared_written_as_import :
    ∃ bundle output, build redeclaring .plain .standard ⟨"/m.js"⟩ =
        .ok bundle ∧
      bundle.generate = .ok output ∧
      output.code = "\x7b function ext.x() \x7b\x7d \x7d\n" ∧
      ∃ module ∈ bundle.modules, ∃ statement,
        (module.path, 1) ∈ bundle.statements ∧
        module.statements[1]? = some statement ∧
        statement.defines = ["x"] ∧
        (statement.references.map (·.name)) = ["x"] ∧
        bundle.referent module "x" =
          .ok (.external "ext" (.named "x")) ∧
        bundle.writtenName module "x" = .ok "ext.x" := by
  have hfacts : ((build redeclaring .plain .standard
      ⟨"/m.js"⟩).toOption.any fun bundle =>
        (bundle.generate.toOption.any fun output => decide
          (output.code = "\x7b function ext.x() \x7b\x7d \x7d\n")) &&
        bundle.modules.any fun module =>
          bundle.statements.contains (module.path, 1) &&
          (module.statements[1]?.any fun statement =>
            decide (statement.defines = ["x"]) &&
              decide (statement.references.map (·.name) = ["x"])) &&
          ((bundle.referent module "x").toOption.any
            (· = .external "ext" (.named "x"))) &&
          (bundle.writtenName module "x").toOption.any (· = "ext.x")) =
        true := by
    decide +kernel
  obtain ⟨bundle, hbuild, hfacts⟩ := Except.exists_of_any_toOption hfacts
  rw [Bool.and_eq_true, List.any_eq_true] at hfacts
  obtain ⟨houtput, module, hmodule, hfacts⟩ := hfacts
  obtain ⟨output, hgenerate, hcode⟩ := Except.exists_of_any_toOption houtput
  simp only [Bool.and_eq_true, List.contains_iff_mem, Option.any_eq_true]
    at hfacts
  obtain ⟨⟨⟨hkept, statement, hstatement, hdefines, hnames⟩, binding,
    hreferent, hbinding⟩, written, hwritten, htext⟩ := hfacts
  refine ⟨bundle, output, hbuild, hgenerate, of_decide_eq_true hcode, module,
    hmodule, statement, hkept, hstatement, of_decide_eq_true hdefines,
    of_decide_eq_true hnames, ?_, ?_⟩
  · rw [Except.toOption_eq_some_iff.mp hreferent, of_decide_eq_true hbinding]
  · rw [Except.toOption_eq_some_iff.mp hwritten, of_decide_eq_true htext]

end Bundle

end Bundler
