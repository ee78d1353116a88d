import Bundler.Proofs.Build.Assembled

/-!
# Writes to used variables

A bundle that uses a variable of a module has what gives the variable its
value: the statement that declares it, the first one if there are several, and
every statement that writes it.
-/

namespace Bundler

namespace Bundle

/-- What uses a variable of a module in a bundle: a statement of the module or
one that imports it, or an export, of the bundle or of an object of exports. -/
inductive Uses (bundle : Bundle) (module : Module) (name : String) : Prop
  | reads {id : Nat} {statement : Statement} :
      (module.path, id) ∈ bundle.statements →
      module.statements[id]? = some statement →
      name ∈ statement.dependsOn →
      Uses bundle module name
  | imports {importer : Module} {id : Nat} {statement : Statement}
      {key : String} :
      importer ∈ bundle.modules →
      (importer.path, id) ∈ bundle.statements →
      importer.statements[id]? = some statement →
      key ∈ statement.dependsOn →
      importer.imports.contains key = true →
      bundle.loader.resolveName importer key =
        .ok (.definition module.path name) →
      Uses bundle module name
  | exports {exported : String} :
      (exported, .definition module.path name) ∈ bundle.exports →
      Uses bundle module name
  | offers {path : Path} {exports : List (String × Binding)}
      {exported : String} :
      (path, exports) ∈ bundle.namespaces →
      (exported, .definition module.path name) ∈ exports →
      Uses bundle module name

section Needed

variable {bundle : Bundle} {entry : Module} {walk : ModuleWalk}
  {shaker : Shaker} (hfaithful : bundle.loader.IsFaithful)
  (hassembled : bundle.IsAssembled entry walk shaker)
  {module : Module} (hmodule : module ∈ bundle.modules)
include hfaithful hassembled

/-- What a bundle starts from. -/
theorem IsAssembled.met_iff_needed (need : Need) :
    shaker.Met need ↔ Shaking.Needed bundle.loader
      (Shaking.Asked bundle.loader entry bundle.options.exports) need := by
  obtain ⟨_, hextends, hmet⟩ :=
    Shaking.shake_does hfaithful hassembled.loaded hassembled.shaken
  exact hextends.met_iff_needed hmet need

include hmodule

/-- The statements of a bundle are the needed ones of its modules. -/
theorem IsAssembled.mem_statements_iff {id : Nat} :
    (module.path, id) ∈ bundle.statements ↔
      Shaking.Needed bundle.loader
        (Shaking.Asked bundle.loader entry bundle.options.exports)
        (.statement module.path id) := by
  obtain ⟨hsound, hextends, hmet⟩ :=
    Shaking.shake_does hfaithful hassembled.loaded hassembled.shaken
  rw [hassembled.modules] at hmodule
  rw [hassembled.statements, mem_inOrder hmodule]
  exact Shaking.included_iff_needed hsound hextends hmet (module.path, id)

/-- A bundle needs the statement that declares what it uses. -/
theorem Uses.needed {name : String} {id : Nat}
    (hlocal : module.imports.contains name = false)
    (huses : bundle.Uses module name)
    (hdefinition : module.definitions.get? name = some id) :
    Shaking.Needed bundle.loader
      (Shaking.Asked bundle.loader entry bundle.options.exports)
      (.statement module.path id) := by
  have hloaded := hassembled.module_loaded hfaithful hmodule
  have hbehind : Shaking.Behind bundle.loader (.definition module.path name)
      (.statement module.path id) := .definition hloaded hdefinition
  cases huses with
  | reads hkept hstatement hname =>
      have hneeded :=
        (hassembled.mem_statements_iff hfaithful hmodule).mp hkept
      exact .follows hneeded
        (.reads hloaded hstatement hname (.definition hlocal hdefinition))
  | imports himporter hkept hstatement hkey himport hresolve =>
      have hneeded :=
        (hassembled.mem_statements_iff hfaithful himporter).mp hkept
      have hother := hassembled.module_loaded hfaithful himporter
      exact .follows hneeded
        (.reads hother hstatement hkey (.imported himport hresolve hbehind))
  | exports hexported =>
      obtain ⟨hrequested, hresolve⟩ :=
        Shaking.shake_exports hassembled.shaken hexported
      exact .asked (.kept hrequested hresolve hbehind)
  | @offers path exports exported hobject hexported =>
      obtain ⟨hsound, _, _⟩ :=
        Shaking.shake_does hfaithful hassembled.loaded hassembled.shaken
      rw [hassembled.namespaces] at hobject
      obtain ⟨owner, names, howner, hnames, hname, hresolve⟩ :=
        hsound.offered _ hobject _ hexported
      have hmet : shaker.Met (.exportsOf path) :=
        List.mem_map.mpr ⟨_, hobject, rfl⟩
      have hneeded :=
        (hassembled.met_iff_needed hfaithful _).mp hmet
      exact .follows hneeded
        (.exports howner hnames hname hresolve hbehind)

/-- Where a statement that declares a name is kept, all that write it are. -/
theorem IsAssembled.writer_mem {name : String} {id writer : Nat}
    {statement written : Statement}
    (hkept : (module.path, id) ∈ bundle.statements)
    (hstatement : module.statements[id]? = some statement)
    (hdefines : name ∈ statement.defines)
    (hwriter : module.statements[writer]? = some written)
    (hmodifies : name ∈ written.modifies) :
    (module.path, writer) ∈ bundle.statements := by
  have hloaded := hassembled.module_loaded hfaithful hmodule
  have htables := hfaithful.hasTables hloaded
  rw [hassembled.mem_statements_iff hfaithful hmodule] at hkept ⊢
  have hlisted : writer ∈ (module.modifications.get? name).getD [] :=
    htables.mem_modifications_iff.mpr ⟨written, hwriter, hmodifies⟩
  exact .follows hkept (.writes hloaded hstatement hdefines hlisted)

end Needed

variable {files : Files} {resolver : Resolver} {options : BundleOptions}
  {path : Path} {bundle : Bundle} {module : Module} {name : String}

/-- A module that exports a variable and writes it later. -/
def writtenExport : Files :=
  .ofList [(⟨"/m.js"⟩, "export let n = 1;\nn = n + 1;")]

/-- A module that exports what it reads from a name which it does not declare
but writes. -/
def writtenGlobal : Files := .ofList
  [(⟨"/a.js"⟩, "export let x = g;\ng = 5;"),
   (⟨"/m.js"⟩, "export { x } from './a';")]

/-- A module that declares the variable that it exports twice. -/
def declaredTwice : Files :=
  .ofList [(⟨"/m.js"⟩, "var n = 1;\nvar n = 2;\nexport { n };")]

/-- A bundle that has every statement which declares or writes what it uses. -/
def KeepsAllWrites (bundle : Bundle) : Prop :=
  ∀ module ∈ bundle.modules, ∀ name,
    module.imports.contains name = false → bundle.Uses module name →
    ∀ id statement, module.statements[id]? = some statement →
      name ∈ statement.defines ∨ name ∈ statement.modifies →
      (module.path, id) ∈ bundle.statements

end Bundle

end Bundler
