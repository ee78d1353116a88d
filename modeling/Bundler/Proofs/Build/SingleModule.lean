import Bundler.Proofs.Build.Reading
import Bundler.Proofs.Path

/-!
# One module for each file

A loader tells modules apart by the steps of the paths that lead to them.  The
paths of entries and of relative imports are normal, so each place has one of
them; an absolute import is taken as it is spelt.  A bundle therefore holds one
module for each file exactly if the paths by which it comes to a file make the
same steps.
-/

namespace Bundler

namespace Path

theorem normalize_of_same {left right : Path} (hsame : left.same right = true) :
    left.normalize = right.normalize := by
  have hparts : left.parts = right.parts := by simpa [same] using hsame
  rw [normalize, normalize, hparts]

theorem IsNormal.of_same {left right : Path} (hsame : left.same right = true)
    (hnormal : right.IsNormal) : left.IsNormal := by
  have hparts : left.parts = right.parts := by simpa [same] using hsame
  rw [IsNormal, normalize_of_same hsame, hparts]
  exact hnormal

/-- Normal paths to one place make the same steps. -/
theorem IsNormal.same_of_normalize {left right : Path} (hleft : left.IsNormal)
    (hright : right.IsNormal)
    (hnormal : left.normalize.same right.normalize = true) :
    left.same right = true := by
  rw [IsNormal] at hleft hright
  simpa [same, hleft, hright] using hnormal

end Path

namespace Bundle

/-- No two modules of a bundle lie at the same place. -/
def HasSingleModules (bundle : Bundle) : Prop :=
  bundle.modules.Pairwise fun left right =>
    left.path.normalize.same right.path.normalize = false

/-- The paths by which a bundle comes to its modules: that of its entry module,
and those that their imports lead to. -/
def ComesBy (bundle : Bundle) (path : Path) : Prop :=
  path = bundle.entry ∨ ∃ module ∈ bundle.modules, ∃ source,
    (source, .internal path) ∈ module.dependencies

section Built

variable {files : Files} {resolver : Resolver} {options : BundleOptions}
  {path asked : Path} {bundle : Bundle} {module other : Module}
  (hbuild : build files resolver options path = .ok bundle)
include hbuild

/-- Modules whose paths make the same steps are one module. -/
theorem eq_of_same (hmodule : module ∈ bundle.modules)
    (hother : other ∈ bundle.modules)
    (hsame : module.path.same other.path = true) : module = other := by
  obtain ⟨hreachable, _, entry, walk, shaker, hassembled⟩ := build_eq_ok hbuild
  have hfaithful := hreachable.isFaithful
  have hleft := hassembled.module_loaded hfaithful hmodule
  have hright := hassembled.module_loaded hfaithful hother
  exact Except.ok.inj
    ((Loader.module_of_same hsame hleft).symm.trans hright)

/-- By each path a bundle comes to one of its modules. -/
theorem exists_of_comesBy (hcomes : bundle.ComesBy asked) :
    ∃ module ∈ bundle.modules, module.path.same asked = true := by
  obtain ⟨entry, walk, shaker, hgraph, hassembled⟩ := build_loads hbuild
  have hreachable := Loader.Reachable.of_loadGraph hgraph
  have hfaithful := hreachable.isFaithful
  have hreached := (hassembled.isPostorder hfaithful).reached
  rcases hcomes with rfl | ⟨importer, himporter, source, hmem⟩
  · refine ⟨entry, (hreached entry).mpr .refl, ?_⟩
    simp [Path.same, hassembled.path]
  · have hreaches := (hreached importer).mp himporter
    obtain ⟨module, hmodule⟩ :=
      (Loading.loadGraph_isComplete hgraph).2 importer hreaches source asked hmem
    refine ⟨module, (hreached module).mpr
      (hreaches.tail ⟨source, asked, hmem, hmodule⟩), ?_⟩
    simp [Path.same, (hfaithful.module_eq_ok hmodule).1]

/-- A bundle comes to each of its modules by some path. -/
theorem exists_comesBy (hmodule : module ∈ bundle.modules) :
    ∃ asked, bundle.ComesBy asked ∧ module.path.same asked = true := by
  obtain ⟨hreachable, _, entry, walk, shaker, hassembled⟩ := build_eq_ok hbuild
  have hfaithful := hreachable.isFaithful
  have hreached := (hassembled.isPostorder hfaithful).reached
  cases (hreached module).mp hmodule with
  | refl => exact ⟨bundle.entry, .inl rfl, by simp [Path.same, hassembled.path]⟩
  | tail hbefore himports =>
      obtain ⟨source, asked, hmem, hfound⟩ := himports
      refine ⟨asked, .inr ⟨_, (hreached _).mpr hbefore, source, hmem⟩, ?_⟩
      simp [Path.same, (hfaithful.module_eq_ok hfound).1]

/-- There is one module for each file exactly if the paths by which the bundle
comes to a file make the same steps. -/
theorem hasSingleModules_iff :
    bundle.HasSingleModules ↔ ∀ left right, bundle.ComesBy left →
      bundle.ComesBy right → left.normalize.same right.normalize = true →
      left.same right = true := by
  constructor
  · intro hsingle left right hleft hright hnormal
    obtain ⟨module, hmodule, hsame⟩ := exists_of_comesBy hbuild hleft
    obtain ⟨other, hother, hsameOther⟩ := exists_of_comesBy hbuild hright
    have heq : module = other := by
      by_contra hne
      have : Std.Symm fun left right : Module =>
          left.path.normalize.same right.path.normalize = false :=
        ⟨fun _ _ hdiffer => by simpa [Path.same, eq_comm] using hdiffer⟩
      have hdiffer := hsingle.forall hmodule hother hne
      rw [Path.normalize_of_same hsame, Path.normalize_of_same hsameOther,
        hnormal] at hdiffer
      cases hdiffer
    subst heq
    simp only [Path.same, decide_eq_true_eq] at hsame hsameOther ⊢
    exact hsame.symm.trans hsameOther
  · intro hsteps
    obtain ⟨hreachable, _, entry, walk, shaker, hassembled⟩ :=
      build_eq_ok hbuild
    have hnodup := (hassembled.isPostorder hreachable.isFaithful).nodup
    refine hnodup.imp_of_mem fun {module other} hmodule hother hne => ?_
    by_contra hnormal
    obtain ⟨left, hleft, hsame⟩ := exists_comesBy hbuild hmodule
    obtain ⟨right, hright, hsameOther⟩ := exists_comesBy hbuild hother
    rw [Bool.not_eq_false, Path.normalize_of_same hsame,
      Path.normalize_of_same hsameOther] at hnormal
    have hfound := hsteps left right hleft hright hnormal
    refine hne (eq_of_same hbuild hmodule hother ?_)
    simp only [Path.same, decide_eq_true_eq] at hfound hsame hsameOther ⊢
    rw [hsame, hfound, hsameOther]

end Built

/-- All paths by which a bundle comes to modules are normal but absolute ones
that a source spells out. -/
theorem isNormal_of_comesBy {files : Files} {options : BundleOptions}
    {path asked : Path} {bundle : Bundle}
    (hbuild : build files .plain options path = .ok bundle)
    (hcomes : bundle.ComesBy asked) :
    asked.IsNormal ∨ asked.isAbsolute = true ∧
      ∃ module ∈ bundle.modules, asked.text ∈ module.interface.sources := by
  obtain ⟨entry, walk, shaker, hgraph, hassembled⟩ := build_loads hbuild
  have hreachable := Loader.Reachable.of_loadGraph hgraph
  have hfaithful := hreachable.isFaithful
  rcases hcomes with rfl | ⟨module, hmodule, source, hmem⟩
  · have hparts :=
      (hfaithful.module_eq_ok (Loading.loadGraph_eq_ok hgraph)).1
    rw [hassembled.path]
    exact .inl ((Path.isNormal_entryPath path).of_same
      (by simp [Path.same, hparts]))
  · obtain ⟨hsource, hresolve⟩ := hfaithful.resolve_of_mem_dependencies
      (hassembled.module_loaded hfaithful hmodule) hmem
    rw [hreachable.grows.resolver_eq] at hresolve
    rcases Path.isNormal_of_followDefault hresolve with
      hnormal | ⟨rfl, habsolute⟩
    · exact .inl hnormal
    · exact .inr ⟨habsolute, module, hmodule, hsource⟩

/-- No path is read twice, and there is one module for each file exactly if the
paths by which the bundle comes to a file make the same steps.  So it is if all
absolute paths that its sources spell out are normal. -/
theorem single_modules {files : Files} {options : BundleOptions} {path : Path}
    {bundle : Bundle}
    (hbuild : build files .plain options path = .ok bundle) :
    bundle.loader.HasReadOnce ∧
    (bundle.modules.Pairwise fun left right =>
      left.path.same right.path = false) ∧
    (bundle.HasSingleModules ↔ ∀ left right, bundle.ComesBy left →
      bundle.ComesBy right → left.normalize.same right.normalize = true →
      left.same right = true) ∧
    ((∀ module ∈ bundle.modules, ∀ source ∈ module.interface.sources,
      (⟨source⟩ : Path).isAbsolute = true → (⟨source⟩ : Path).IsNormal) →
      bundle.HasSingleModules) := by
  obtain ⟨hreachable, _, entry, walk, shaker, hassembled⟩ := build_eq_ok hbuild
  have hnodup := (hassembled.isPostorder hreachable.isFaithful).nodup
  refine ⟨hreachable.hasReadOnce, ?_, hasSingleModules_iff hbuild, ?_⟩
  · refine hnodup.imp_of_mem fun hmodule hother hne => ?_
    exact Bool.eq_false_iff.mpr fun hsame =>
      hne (eq_of_same hbuild hmodule hother hsame)
  · intro hspelt
    have hnormal : ∀ asked, bundle.ComesBy asked → asked.IsNormal := by
      intro asked hcomes
      rcases isNormal_of_comesBy hbuild hcomes with
        hnormal | ⟨habsolute, module, hmodule, hsource⟩
      · exact hnormal
      · exact hspelt module hmodule asked.text hsource habsolute
    exact (hasSingleModules_iff hbuild).mpr fun left right hleft hright =>
      (hnormal left hleft).same_of_normalize (hnormal right hright)

/-- A module that is come by in three ways. -/
def threeWays : Files := .ofList
  [(⟨"/a.js"⟩, "export let x = 1;"),
   (⟨"/b/c.js"⟩, "import { x } from '../a.js';\nf(x);"),
   (⟨"/m.js"⟩, "import { x } from './b/.././a';\nimport './b/c';\n" ++
      "import { x as y } from '/a.js';\nf(x, y);")]

theorem single_modules_threeWays :
    ∃ bundle, build threeWays .plain .standard ⟨"/m.js"⟩ = .ok bundle ∧
      bundle.modules.map (·.path) = [⟨"/a.js"⟩, ⟨"/b/c.js"⟩, ⟨"/m.js"⟩] ∧
      bundle.HasSingleModules := by
  have hfacts : (build threeWays .plain .standard
      ⟨"/m.js"⟩).toOption.any (fun bundle =>
        decide (bundle.modules.map (·.path) =
          [⟨"/a.js"⟩, ⟨"/b/c.js"⟩, ⟨"/m.js"⟩]) &&
        bundle.modules.all fun module =>
          module.interface.sources.all fun source =>
            decide ((⟨source⟩ : Path).normalize.parts =
              (⟨source⟩ : Path).parts) ||
            !(⟨source⟩ : Path).isAbsolute) = true := by
    decide +kernel
  obtain ⟨bundle, hbuild, hfacts⟩ := Except.exists_of_any_toOption hfacts
  simp only [Bool.and_eq_true, List.all_eq_true, Bool.or_eq_true,
    decide_eq_true_eq, Bool.not_eq_true'] at hfacts
  obtain ⟨hpaths, hnormal⟩ := hfacts
  refine ⟨bundle, hbuild, hpaths, (single_modules hbuild).2.2.2 ?_⟩
  intro module hmodule source hsource habsolute
  rcases hnormal module hmodule source hsource with hsteps | hrelative
  · exact hsteps
  · rw [habsolute] at hrelative
    cases hrelative

/-- A module that is imported by an absolute path with a step back. -/
def stepBack : Files := .ofList
  [(⟨"/a.js"⟩, "export let x = 1;"),
   (⟨"/m.js"⟩, "import { x } from './a';\n" ++
      "import { x as y } from '/b/../a.js';\nf(x, y);")]

/-- An absolute path that is not normal makes a second module of a file, whose
statements are kept as well. -/
theorem second_module_stepBack :
    ∃ bundle, build stepBack .plain .standard ⟨"/m.js"⟩ = .ok bundle ∧
      ¬ bundle.HasSingleModules ∧
      bundle.statements = [(⟨"/a.js"⟩, 0), (⟨"/b/../a.js"⟩, 0), (⟨"/m.js"⟩, 2)] := by
  have hfacts : (build stepBack .plain .standard
      ⟨"/m.js"⟩).toOption.any (fun bundle =>
        decide (bundle.modules.map (·.path) =
          [⟨"/a.js"⟩, ⟨"/b/../a.js"⟩, ⟨"/m.js"⟩]) &&
        decide (bundle.statements =
          [(⟨"/a.js"⟩, 0), (⟨"/b/../a.js"⟩, 0), (⟨"/m.js"⟩, 2)])) = true := by
    decide +kernel
  obtain ⟨bundle, hbuild, hfacts⟩ := Except.exists_of_any_toOption hfacts
  rw [Bool.and_eq_true, decide_eq_true_eq, decide_eq_true_eq] at hfacts
  obtain ⟨hpaths, hstatements⟩ := hfacts
  refine ⟨bundle, hbuild, fun hsingle => ?_, hstatements⟩
  have hdiffer : (bundle.modules.map (·.path)).Pairwise fun left right =>
      left.normalize.same right.normalize = false :=
    List.pairwise_map.mpr hsingle
  rw [hpaths] at hdiffer
  exact absurd hdiffer (by decide +kernel)

end Bundle

end Bundler
