import Bundler.Proofs.Build.Kept

/-!
# Definitions before their uses

Where imports do not go in a circle, a statement comes after the statements of
other modules that define what it reads.  A name may lead over several modules,
but only along imports, so the module that it leads to is reached and comes
before.
-/

namespace Bundler

namespace Loader

variable {loader : Loader} {entry module : Module} {modules : List Module}

theorem resolveName_eq_definition {name : String}
    (hlocal : module.imports.contains name = false) :
    loader.resolveName module name =
      .ok (.definition module.path name) := by
  have hnone : module.imports.get? name = none := by
    simpa [NameMap.contains] using hlocal
  rw [resolveName, followName, hnone]
  rfl

theorem not_precedes_self {α : Type} {values : List α} {value : α}
    (hnodup : values.Nodup) : ¬ Precedes values value value := by
  rintro ⟨before, after, rfl, hbefore, hafter⟩
  exact (List.nodup_append.mp hnodup).2.2 value hbefore value hafter rfl

/-- If every module comes after all that it imports, no import closes a
circle. -/
theorem IsPostorder.not_reaches (hpostorder : loader.IsPostorder entry modules)
    (hordered : ∀ module ∈ modules, ∀ dependency,
      loader.Imports module dependency → Precedes modules dependency module)
    {dependency : Module} (hmodule : module ∈ modules)
    (himports : loader.Imports module dependency) :
    ¬ loader.Reaches dependency module := by
  have hnodup := hpostorder.nodup
  have hbefore := hordered module hmodule dependency himports
  intro hreaches
  have hback : ∀ {other : Module}, loader.Reaches dependency other →
      other ∈ modules ∧ (dependency = other ∨ Precedes modules other dependency) := by
    intro other hreaches
    induction hreaches with
    | refl => exact ⟨hbefore.mem_left, .inl rfl⟩
    | @tail between last _ himports ih =>
        have hlast := hordered between ih.1 last himports
        refine ⟨hlast.mem_left, .inr ?_⟩
        cases ih.2 with
        | inl hsame => exact hsame ▸ hlast
        | inr hbetween => exact hlast.trans hnodup hbetween
  cases (hback hreaches).2 with
  | inl hsame => exact not_precedes_self hnodup (hsame ▸ hbefore)
  | inr hafter => exact not_precedes_self hnodup (hbefore.trans hnodup hafter)

end Loader

namespace Bundle

variable {files : Files} {resolver : Resolver} {bundle : Bundle}

/-- No import of a bundle closes a circle. -/
def IsAcyclic (bundle : Bundle) : Prop :=
  ∀ module ∈ bundle.modules, ∀ dependency,
    bundle.loader.Imports module dependency →
    ¬ bundle.loader.Reaches dependency module

section Assembled

variable {entry module : Module} {walk : ModuleWalk} {shaker : Shaker}
  (hfaithful : bundle.loader.IsFaithful)
  (hassembled : bundle.IsAssembled entry walk shaker)
  (hmodule : module ∈ bundle.modules)
include hfaithful hassembled hmodule

/-- A statement keeps what defines the names that it reads. -/
theorem IsAssembled.definer_kept {id : Nat} {statement : Statement}
    {name : String} {binding : Binding} {definer : StatementId}
    (hkept : (module.path, id) ∈ bundle.statements)
    (hstatement : module.statements[id]? = some statement)
    (hname : name ∈ statement.dependsOn)
    (himport : module.imports.contains name = true)
    (hresolve : bundle.loader.resolveName module name = .ok binding)
    (hdefiner : Shaking.IsDefiner bundle.loader binding definer) :
    definer ∈ bundle.statements := by
  have hloaded := hassembled.module_loaded hfaithful hmodule
  have hneeded : Shaking.Needed bundle.loader
      (Shaking.Asked bundle.loader entry bundle.options.exports)
      (.statement definer.1 definer.2) :=
    .follows ((hassembled.mem_statements_iff hfaithful hmodule).mp hkept)
      (.reads hloaded hstatement hname
        (.imported himport hresolve (Shaking.isDefiner_iff.mp hdefiner)))
  have hmet := (hassembled.met_iff_needed hfaithful _).mpr hneeded
  obtain ⟨other, hother, hpath⟩ := hassembled.module_of_met hfaithful hmet
  have hsame : definer = (other.path, definer.2) := Prod.ext hpath.symm rfl
  rw [hsame, hassembled.mem_statements_iff hfaithful hother, hpath]
  exact hneeded

/-- Without circles a statement comes after what defines a name of its module in
another one. -/
theorem IsAssembled.definer_precedes (hacyclic : bundle.IsAcyclic) {id : Nat}
    {name : String} {binding : Binding} {definer : StatementId}
    (hkept : (module.path, id) ∈ bundle.statements)
    (himport : module.imports.contains name = true)
    (hresolve : bundle.loader.resolveName module name = .ok binding)
    (hdefiner : Shaking.IsDefiner bundle.loader binding definer)
    (hother : definer.1 ≠ module.path)
    (hkeptDefiner : definer ∈ bundle.statements) :
    Precedes bundle.statements definer (module.path, id) := by
  have hpostorder := hassembled.isPostorder hfaithful
  have hloaded := hassembled.module_loaded hfaithful hmodule
  obtain ⟨path, key, other, rfl, hfound, hpath, _⟩ := hdefiner
  have hreaches : bundle.loader.Reaches module other := by
    cases bundle.loader.resolveName_leadsTo hfaithful hloaded himport
        hresolve with
    | definition hreaches _ _ =>
        have hsame := hfaithful.module_of_reaches hloaded hreaches
        rw [hfound] at hsame
        exact Except.ok.inj hsame ▸ hreaches
  have hmodules : Precedes bundle.modules other module := by
    apply (hpostorder.precedes_of_reaches hacyclic hmodule
      hreaches).resolve_left
    rintro rfl
    exact hother hpath
  have hown : ∀ {owner : Module} {statement : StatementId},
      owner ∈ bundle.modules → statement.1 = owner.path →
      statement ∈ bundle.statements →
      statement ∈ (keptIn shaker.included owner).map (owner.path, ·) := by
    rintro owner ⟨_, number⟩ howner rfl hstatement
    rw [hassembled.modules] at howner
    rw [hassembled.statements, mem_inOrder howner] at hstatement
    exact List.mem_map.mpr ⟨number, mem_keptIn.mpr hstatement, rfl⟩
  have hfirst := hown hmodules.mem_left hpath hkeptDefiner
  have hsecond := hown hmodule rfl hkept
  rw [hassembled.statements]
  rw [hassembled.modules] at hmodules
  exact hmodules.flatMap hfirst hsecond

end Assembled

/-- For a graph that loads, the walk lists all that the entry module reaches,
each module once and after what it imports, unless the import closes a circle.
A bundle has its modules in that order, and their statements in the order of
the sources.  If no import closes a circle, a statement comes after the
statements of other modules that the names which it reads lead to. -/
theorem definers_first (files : Files) (resolver : Resolver) :
    (∀ path entry loader,
      Loading.loadGraph path (.ofFiles files resolver) = .ok entry loader →
      ∃ walk, ModuleWalk.ofEntry loader entry = .ok walk ∧
        loader.IsPostorder entry walk.modules) ∧
    ∀ options path bundle, build files resolver options path = .ok bundle →
      (∃ entry, bundle.loader.module bundle.entry = .ok entry ∧
        bundle.loader.IsPostorder entry bundle.modules) ∧
      (bundle.statements.Pairwise fun first second =>
        first.1 = second.1 → first.2 < second.2) ∧
      (bundle.IsAcyclic → ∀ module ∈ bundle.modules, ∀ id statement,
        (module.path, id) ∈ bundle.statements →
        module.statements[id]? = some statement →
        ∀ name binding definer,
          bundle.loader.resolveName module name = .ok binding →
          Shaking.IsDefiner bundle.loader binding definer →
          definer.1 ≠ module.path →
          (name ∈ statement.dependsOn → definer ∈ bundle.statements) ∧
          (definer ∈ bundle.statements →
            Precedes bundle.statements definer (module.path, id))) := by
  constructor
  · intro path entry loader hrun
    obtain ⟨hentry, hcomplete⟩ := Loading.loadGraph_isComplete hrun
    have hreachable := Loader.Reachable.of_loadGraph hrun
    obtain ⟨walk, hwalk⟩ := ModuleWalk.exists_ofEntry_eq_ok
      hreachable.isFaithful hcomplete hentry
    exact ⟨walk, hwalk,
      (ModuleWalk.ofEntry_isPostorder hreachable.isFaithful hentry hwalk).1⟩
  · intro options path bundle hbuild
    obtain ⟨hreachable, _, entry, walk, shaker, hassembled⟩ :=
      build_eq_ok hbuild
    have hfaithful := hreachable.isFaithful
    have hpostorder := hassembled.isPostorder hfaithful
    refine ⟨⟨entry, hassembled.path ▸ hassembled.loaded, hpostorder⟩, ?_, ?_⟩
    · have honce := hpostorder.once
      rw [hassembled.modules] at honce
      rw [hassembled.statements]
      exact pairwise_inOrder (hassembled.isSound hfaithful).nodup honce
    · intro hacyclic module hmodule id statement hkept hstatement name binding
        definer hresolve hdefiner hother
      have hloaded := hassembled.module_loaded hfaithful hmodule
      have himport : module.imports.contains name = true := by
        by_contra hlocal
        rw [Bool.not_eq_true] at hlocal
        rw [Loader.resolveName_eq_definition hlocal] at hresolve
        obtain rfl := Except.ok.inj hresolve
        obtain ⟨_, _, owner, hsame, hfound, hpath, _⟩ := hdefiner
        obtain ⟨rfl, _⟩ := Binding.definition.inj hsame
        rw [hloaded] at hfound
        exact hother (Except.ok.inj hfound ▸ hpath)
      exact ⟨fun hname => hassembled.definer_kept hfaithful hmodule hkept
          hstatement hname himport hresolve hdefiner,
        hassembled.definer_precedes hfaithful hmodule hacyclic hkept himport
          hresolve hdefiner hother⟩

/-- A bundle in whose order all imports go back has no circles. -/
theorem IsAssembled.isAcyclic {entry : Module} {walk : ModuleWalk}
    {shaker : Shaker} (hfaithful : bundle.loader.IsFaithful)
    (hassembled : bundle.IsAssembled entry walk shaker)
    (hback : ∀ index module, bundle.modules[index]? = some module →
      ∀ source path, (source, .internal path) ∈ module.dependencies →
      ∃ dependency, bundle.loader.module path = .ok dependency ∧
        dependency.path ∈ (bundle.modules.take index).map (·.path)) :
    bundle.IsAcyclic := by
  have hpostorder := hassembled.isPostorder hfaithful
  intro module hmodule dependency himports
  refine hpostorder.not_reaches ?_ hmodule himports
  rintro module hmodule dependency ⟨source, path, hmem, hfound⟩
  obtain ⟨index, hindex⟩ := List.mem_iff_getElem?.mp hmodule
  obtain ⟨other, hother, hpath⟩ := hback index module hindex source path hmem
  rw [hfound] at hother
  obtain rfl := Except.ok.inj hother
  obtain ⟨listed, hlisted, hsame⟩ := List.mem_map.mp hpath
  have hloaded := hassembled.module_loaded hfaithful (List.mem_of_mem_take hlisted)
  rw [hsame, hfaithful.module_path hfound] at hloaded
  obtain rfl := Except.ok.inj hloaded
  refine ⟨bundle.modules.take index, bundle.modules.drop index,
    (List.take_append_drop _ _).symm, hlisted, ?_⟩
  have hhead : (bundle.modules.drop index)[0]? = some module := by
    rw [List.getElem?_drop, Nat.add_zero, hindex]
  exact List.mem_of_getElem? hhead

/-- Whether a dependency, of the module at a place in the order, comes before
that place. -/
def goesBack (bundle : Bundle) (index : Nat) : Dependency → Bool
  | .internal path => (bundle.loader.module path).toOption.any fun dependency =>
      ((bundle.modules.take index).map (·.path)).contains dependency.path
  | .external _ => true

/-- A module that reads a name which one module defines and another passes
on. -/
def passedOn : Files := .ofList
  [(⟨"/a.js"⟩, "export let x = 1;"),
   (⟨"/b.js"⟩, "export { x } from './a';"),
   (⟨"/m.js"⟩, "import { x } from './b';\nconsole.log(x);")]

/-- The definition comes first, although no import of its reader names its
module. -/
theorem definers_first_passedOn :
    (∃ entry loader walk,
      Loading.loadGraph ⟨"/m.js"⟩ (.ofFiles passedOn .plain) =
        .ok entry loader ∧
      ModuleWalk.ofEntry loader entry = .ok walk ∧
      loader.IsPostorder entry walk.modules) ∧
    ∃ bundle, build passedOn .plain .standard ⟨"/m.js"⟩ = .ok bundle ∧
      bundle.IsAcyclic ∧
      Precedes bundle.statements (⟨"/a.js"⟩, 0) (⟨"/m.js"⟩, 1) := by
  obtain ⟨hwalks, hbuilds⟩ := definers_first passedOn .plain
  constructor
  · have hloads : ((Loading.loadGraph ⟨"/m.js"⟩).run'
        (.ofFiles passedOn .plain)).isSome = true := by
      decide +kernel
    cases hrun : Loading.loadGraph ⟨"/m.js"⟩ (.ofFiles passedOn .plain) with
    | error failure loader =>
        delta EStateM.run' EStateM.run at hloads
        rw [hrun] at hloads
        cases hloads
    | ok entry loader =>
        obtain ⟨walk, hwalk, hpostorder⟩ := hwalks _ entry loader hrun
        exact ⟨entry, loader, walk, rfl, hwalk, hpostorder⟩
  · have hfacts : ((build passedOn .plain .standard
        ⟨"/m.js"⟩).toOption.any fun bundle =>
          ((List.range bundle.modules.length).all fun index =>
            bundle.modules[index]?.any fun module =>
              module.dependencies.all fun entry =>
                bundle.goesBack index entry.2) &&
          bundle.modules.any fun module =>
            decide (module.path = ⟨"/m.js"⟩) &&
            bundle.statements.contains (module.path, 1) &&
            module.statements[1]?.any (·.dependsOn.contains "x") &&
            (bundle.loader.resolveName module "x").toOption.any fun binding =>
              decide (binding = .definition ⟨"/a.js"⟩ "x") &&
              (bundle.loader.module ⟨"/a.js"⟩).toOption.any fun other =>
                decide (other.path = ⟨"/a.js"⟩) &&
                decide (other.definitions.get? "x" = some 0)) = true := by
      decide +kernel
    obtain ⟨bundle, hbuild, hfacts⟩ := Except.exists_of_any_toOption hfacts
    rw [Bool.and_eq_true, List.all_eq_true] at hfacts
    obtain ⟨hback, hfacts⟩ := hfacts
    simp only [List.any_eq_true, Bool.and_eq_true, List.contains_iff_mem,
      Option.any_eq_true, decide_eq_true_eq, Except.toOption_eq_some_iff]
      at hfacts
    obtain ⟨module, hmodule, ⟨⟨hpath, hkept⟩, statement, hstatement, hname⟩,
      _, hresolve, rfl, other, hother, hotherPath, hdefinition⟩ := hfacts
    obtain ⟨hreachable, _, entry, walk, shaker, hassembled⟩ :=
      build_eq_ok hbuild
    have hacyclic : bundle.IsAcyclic := by
      refine hassembled.isAcyclic hreachable.isFaithful ?_
      intro index module hindex source path hmem
      have hless := (List.getElem?_eq_some_iff.mp hindex).1
      have hentry := hback index (List.mem_range.mpr hless)
      rw [hindex, Option.any_some, List.all_eq_true] at hentry
      obtain ⟨dependency, hfound, hlisted⟩ :=
        Except.exists_of_any_toOption (hentry _ hmem)
      exact ⟨dependency, hfound, List.contains_iff_mem.mp hlisted⟩
    have hdefiner : Shaking.IsDefiner bundle.loader
        (.definition ⟨"/a.js"⟩ "x") (⟨"/a.js"⟩, 0) :=
      ⟨_, _, other, rfl, hother, hotherPath.symm, hdefinition⟩
    have hreads := (hbuilds _ _ bundle hbuild).2.2 hacyclic module hmodule 1
      statement hkept hstatement "x" _ _ hresolve hdefiner (by rw [hpath]; decide)
    refine ⟨bundle, hbuild, hacyclic, ?_⟩
    rw [← hpath]
    exact hreads.2 (hreads.1 hname)

end Bundle

end Bundler
