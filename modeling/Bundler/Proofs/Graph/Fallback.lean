import Bundler.Proofs.Graph.Search

/-!
# Falling back on modules outside the bundle

A module looks for an export behind all its bundled stars before it takes it to
come from one that is not bundled.  Each module on the way of a search does so for
itself: the fallback of a nested star is taken at once, before the later stars of
the modules that led there.  So an answer out of the bundle means that what stands
behind the export within it branches off later, and where the module falls back on
a star of its own, that there is nothing.
-/

namespace Bundler

/-- What refers to something of a bundled module. -/
def Binding.IsBundled : Binding → Prop
  | .definition _ _ | .exportsOf _ => True
  | .external _ _ => False

/-- A route goes along another one up to a step where it takes a later way. -/
inductive LeavesLater : List Nat → List Nat → Prop
  | now {earlier later : Nat} {rest others : List Nat} :
      earlier < later → LeavesLater (earlier :: rest) (later :: others)
  | after {number : Nat} {rest others : List Nat} :
      LeavesLater rest others →
      LeavesLater (number :: rest) (number :: others)

namespace Loader

variable {loader : Loader} {module other : Module} {name : String}
  {start last next : Path × String} {met : List (Path × String)}
  {trail route : List Nat} {number : Nat} {specifier : String}
  {binding bound : Binding} {importer : Path}

/-- A module without an own export of a name star-exports what another one
exports. -/
def PassesStar (loader : Loader) (name : String)
    (module dependency : Module) : Prop :=
  module.exports.get? name = none ∧ ∃ source ∈ module.starSources,
    loader.target module source = .ok (.internal dependency)

/-- Star exports of modules without an own export of a name lead to one with such
an export, which refers to something in the bundle. -/
structure ResolvesBehind (loader : Loader) (module : Module) (name : String)
    (other : Module) (binding : Binding) : Prop where
  reaches : Relation.ReflTransGen (loader.PassesStar name) module other
  entry : ∃ exported, other.exports.get? name = some exported ∧
    loader.resolveName other exported.localName = .ok binding
  bundled : binding.IsBundled

/-- The first end of the trails from a place is a star export of the last place on
one of them, and leads out of the bundle. -/
structure IsFallback (loader : Loader) (start : Path × String)
    (trail : List Nat) (last : Path × String) (binding : Binding) : Prop where
  leads : Trail loader.Step [] start trail last
  outside : ∃ number specifier, loader.FallsBack last number specifier ∧
    loader.EndsFirst [] start (trail ++ [number]) binding

theorem FallsBack.step_lt (hfalls : loader.FallsBack start number specifier)
    {index : Nat} (hstep : loader.Step start index next) : index < number := by
  obtain ⟨hmodule, habsent, _, _⟩ := hfalls
  cases hstep with
  | passOn hloaded hexported => grind
  | star hstar =>
      cases hstar with
      | star hloaded _ _ hsource _ =>
          rw [hmodule] at hloaded
          obtain rfl := Except.ok.inj hloaded
          exact (List.getElem?_eq_some_iff.mp hsource).1

/-- A bundled end that does not come before an end out of the bundle leaves its
way at a later star.  It neither ends on the way nor follows it up to the end,
where all bundled stars come before the fallback. -/
theorem leavesLater_of_le (htrail : Trail loader.Step met start trail last)
    (hfalls : loader.FallsBack last number specifier)
    (hends : loader.Ends met start route bound) (hbundled : bound.IsBundled)
    (hle : List.le (trail ++ [number]) route) : LeavesLater trail route := by
  induction htrail generalizing route with
  | here hnew =>
      obtain ⟨_, ⟨_, hstops⟩ | ⟨_, _, _, _, rfl⟩ |
        ⟨index, _, _, hstep, rfl, _⟩⟩ := hends.start_cases
      · exact absurd hfalls hstops.not_fallsBack
      · exact hbundled.elim
      · have hless := hfalls.step_lt hstep
        rcases List.cons_le_cons_iff.mp hle with hlater | ⟨rfl, _⟩
        · exact absurd hlater (Nat.lt_asymm hless)
        · exact absurd hless (Nat.lt_irrefl _)
  | step hnew hstep _ ih =>
      obtain ⟨_, ⟨_, hstops⟩ | ⟨_, _, _, _, rfl⟩ |
        ⟨index, next, rest, hother, rfl, hrest⟩⟩ := hends.start_cases
      · exact absurd hstep hstops.not_step
      · exact hbundled.elim
      · rcases List.cons_le_cons_iff.mp hle with hlater | ⟨rfl, hbehind⟩
        · exact .now hlater
        · obtain rfl := hstep.unique hother
          exact .after (ih hfalls hrest hbehind)

section Behind

variable (hfaithful : loader.IsFaithful)
  (hmodule : loader.module module.path = .ok module)
include hfaithful hmodule

/-- What an own export refers to is the end of a trail. -/
theorem exists_ends_of_resolveName {exported : Export}
    (hexported : module.exports.get? name = some exported)
    (hresolve : loader.resolveName module exported.localName = .ok binding) :
    ∃ route, loader.Ends [] (module.path, name) route binding := by
  have hhere : ∀ {binding : Binding},
      loader.Stops (module.path, name) binding →
      ∃ route, loader.Ends [] (module.path, name) route binding :=
    fun hstops => ⟨[], .own (.here List.not_mem_nil) hstops⟩
  obtain ⟨after, hrun⟩ := Search.outcome_eq_ok hresolve
  rw [followName] at hrun
  cases himport : module.imports.get? exported.localName with
  | none =>
      rw [himport] at hrun
      obtain ⟨rfl, _⟩ := Outcome.pure_eq_ok_iff.mp hrun
      exact hhere (.definition hmodule hexported himport)
  | some imported =>
      rw [himport] at hrun
      obtain ⟨target, _, hlookup, hrun⟩ := Outcome.bind_eq_ok_iff.mp hrun
      obtain ⟨htarget, rfl⟩ := Search.ofExcept_eq_ok_iff.mp hlookup
      cases target with
      | external specifier =>
          obtain ⟨rfl, _⟩ := Outcome.pure_eq_ok_iff.mp hrun
          exact hhere (.external hmodule hexported himport htarget)
      | internal dependency =>
          cases hname : imported.name.exportName? with
          | none =>
              simp only [hname] at hrun
              obtain ⟨rfl, _⟩ := Outcome.pure_eq_ok_iff.mp hrun
              exact hhere (.exportsOf hmodule hexported himport htarget hname)
          | some exportedName =>
              simp only [hname] at hrun
              have hfound : loader.resolveExport dependency exportedName
                  module.path = .ok binding := by
                rw [resolveExport, Search.outcome, hrun]
              obtain ⟨_, hfirst⟩ := resolveExport_endsFirst hfaithful
                (hfaithful.module_of_target htarget) hfound
              exact hfirst.ends.prepend List.not_mem_nil
                (.passOn hmodule hexported himport htarget hname)

/-- What stands behind star exports of a name is the end of a trail. -/
theorem ResolvesBehind.exists_ends
    (hnamed : module.exports.get? name = none → name ≠ defaultSlot)
    (hbehind : loader.ResolvesBehind module name other binding) :
    ∃ route, loader.Ends [] (module.path, name) route binding := by
  obtain ⟨hreaches, ⟨exported, hexported, hresolve⟩, _⟩ := hbehind
  induction hreaches using Relation.ReflTransGen.head_induction_on with
  | refl =>
      exact exists_ends_of_resolveName hfaithful hmodule hexported hresolve
  | @head between dependency hpasses _ ih =>
      obtain ⟨habsent, source, hsource, htarget⟩ := hpasses
      obtain ⟨index, hindex⟩ := List.mem_iff_getElem?.mp hsource
      obtain ⟨_, hends⟩ := ih (hfaithful.module_of_target htarget)
        fun _ => hnamed habsent
      exact hends.prepend List.not_mem_nil
        (.star (.star hmodule habsent (hnamed habsent) hindex htarget))

end Behind

/-- Only star exports lead on from a module without an own export, and none does
for the default export. -/
theorem Ends.named (hmodule : loader.module module.path = .ok module)
    (hends : loader.Ends met (module.path, name) route binding)
    (habsent : module.exports.get? name = none) : name ≠ defaultSlot := by
  obtain ⟨_, ⟨_, hstops⟩ | ⟨_, _, hfalls, _⟩ | ⟨_, _, _, hstep, _⟩⟩ :=
    hends.start_cases
  · cases hstops <;> grind
  · cases hfalls
    assumption
  · cases hstep with
    | passOn hloaded hexported => grind
    | star hstar =>
        cases hstar
        assumption

/-- An answer is the first end of a trail.  Where that is a star export out of the
bundle, whatever stands in the bundle behind star exports of the name is found
only along a later star of some module on the way; so where a module falls back on
its own star, nothing does. -/
theorem fallback_last {files : Files} {resolver : Resolver}
    (hreachable : Reachable files resolver loader)
    (hmodule : loader.module module.path = .ok module)
    (hresolve : loader.resolveExport module name importer = .ok binding) :
    (∃ route, loader.EndsFirst [] (module.path, name) route binding) ∧
    ∀ trail last, loader.IsFallback (module.path, name) trail last binding →
      (∀ other bound, loader.ResolvesBehind module name other bound →
        ∃ route, loader.Ends [] (module.path, name) route bound ∧
          LeavesLater trail route) ∧
      (last = (module.path, name) →
        ∀ other bound, ¬ loader.ResolvesBehind module name other bound) := by
  have hfaithful := hreachable.isFaithful
  refine ⟨resolveExport_endsFirst hfaithful hmodule hresolve,
    fun trail last hfallback => ?_⟩
  obtain ⟨hleads, number, specifier, hfalls, hfirst⟩ := hfallback
  have hlater : ∀ other bound, loader.ResolvesBehind module name other bound →
      ∃ route, loader.Ends [] (module.path, name) route bound ∧
        LeavesLater trail route := by
    intro other bound hbehind
    obtain ⟨route, hends⟩ := hbehind.exists_ends hfaithful hmodule
      (hfirst.ends.named hmodule)
    exact ⟨route, hends, leavesLater_of_le hleads hfalls hends hbehind.bundled
      (hfirst.first route bound hends)⟩
  refine ⟨hlater, fun hown other bound hbehind => ?_⟩
  subst hown
  obtain ⟨route, _, hleaves⟩ := hlater other bound hbehind
  cases hleads with
  | here _ => cases hleaves
  | step _ _ hrest => exact hrest.last_notMem List.mem_cons_self

section Witnesses

/-- Where no module imports a name, only star exports lead out of the bundle. -/
theorem exists_isFallback
    (himports : ∀ other ∈ loader.modules, other.imports.entries = [])
    (hfaithful : loader.IsFaithful)
    (hmodule : loader.module module.path = .ok module) {imported : ImportedName}
    (hresolve : loader.resolveExport module name importer =
      .ok (.external specifier imported)) :
    ∃ trail last, loader.IsFallback (module.path, name) trail last
      (.external specifier imported) := by
  obtain ⟨route, hfirst⟩ := resolveExport_endsFirst hfaithful hmodule hresolve
  have hends := hfirst.ends
  generalize hbinding : Binding.external specifier imported = binding
    at hends hfirst ⊢
  cases hends with
  | own _ hstops =>
      cases hstops with
      | definition => cases hbinding
      | exportsOf => cases hbinding
      | external hloaded _ himport _ =>
          rw [NameMap.get?, himports _ (mem_modules hloaded)] at himport
          cases himport
  | outside htrail hfalls => exact ⟨_, _, htrail, _, _, hfalls, hfirst⟩

/-- A module that star-exports two others, of which the first star-exports a
module outside the bundle and the second defines a name. -/
def nestedStar : Files := .ofList
  [(⟨"/all.js"⟩, "export * from './a';\nexport * from './b';"),
   (⟨"/a.js"⟩, "export * from 'ext';"),
   (⟨"/b.js"⟩, "export let x = 1;")]

/-- The nested star that leads out of the bundle is taken, although a later star
leads to a definition. -/
theorem fallback_before_definition :
    ∃ entry loader,
      Loading.loadGraph ⟨"/all.js"⟩ (.ofFiles nestedStar .plain) =
        .ok entry loader ∧
      loader.resolveExport entry "x" ⟨"/m.js"⟩ =
        .ok (.external "ext" (.named "x")) ∧
      (∃ trail last, loader.IsFallback (entry.path, "x") trail last
        (.external "ext" (.named "x"))) ∧
      ∃ other, loader.ResolvesBehind entry "x" other
        (.definition ⟨"/b.js"⟩ "x") := by
  have hfacts : Outcome.passes (Loading.loadGraph ⟨"/all.js"⟩)
      (.ofFiles nestedStar .plain) (fun entry loader =>
        (loader.resolveExport entry "x" ⟨"/m.js"⟩).toOption.any (fun binding =>
          decide (binding = .external "ext" (.named "x"))) &&
        loader.modules.all (fun module =>
          decide (module.imports.entries = [])) &&
        decide (entry.exports.get? "x" = none) &&
        entry.starSources.contains "./b" &&
        decide (entry.dependency? "./b" = some (.internal ⟨"/b.js"⟩)) &&
        (loader.module ⟨"/b.js"⟩).toOption.any fun other =>
          (other.exports.get? "x").any fun exported =>
            (loader.resolveName other exported.localName).toOption.any
              fun binding => decide (binding = .definition ⟨"/b.js"⟩ "x")) =
      true := by
    decide +kernel
  obtain ⟨entry, loader, hload, hfacts⟩ := Outcome.exists_of_passes hfacts
  simp only [Bool.and_eq_true, List.all_eq_true, decide_eq_true_eq,
    List.contains_iff_mem, Option.any_eq_true, Except.toOption_eq_some_iff]
    at hfacts
  obtain ⟨⟨⟨⟨⟨⟨_, hresolve, rfl⟩, himports⟩, habsent⟩, hsource⟩, hleads⟩,
    other, hmodule, exported, hexported, _, hfound, rfl⟩ := hfacts
  have htarget : loader.target entry "./b" = .ok (.internal other) := by
    simp only [target, hleads, Option.getD_some, hmodule]
    rfl
  have hreachable := Loader.Reachable.of_loadGraph hload
  have hfaithful := hreachable.isFaithful
  have hentry := hfaithful.module_path (Loading.loadGraph_eq_ok hload)
  exact ⟨entry, loader, hload, hresolve,
    exists_isFallback himports hfaithful hentry hresolve, other,
    .single ⟨habsent, "./b", hsource, htarget⟩,
    ⟨exported, hexported, hfound⟩, trivial⟩

/-- A module that star-exports one outside the bundle before one within it. -/
def ownStar : Files := .ofList
  [(⟨"/all.js"⟩, "export * from 'ext';\nexport * from './b';"),
   (⟨"/b.js"⟩, "export let x = 1;")]

/-- A name that no bundled star passes on is taken to come from the other one. -/
theorem fallback_last_ownStar :
    ∃ entry loader,
      Loading.loadGraph ⟨"/all.js"⟩ (.ofFiles ownStar .plain) =
        .ok entry loader ∧
      loader.resolveExport entry "y" ⟨"/m.js"⟩ =
        .ok (.external "ext" (.named "y")) ∧
      ∃ trail last, loader.IsFallback (entry.path, "y") trail last
        (.external "ext" (.named "y")) ∧
        ∀ other bound, loader.ResolvesBehind entry "y" other bound →
          ∃ route, loader.Ends [] (entry.path, "y") route bound ∧
            LeavesLater trail route := by
  have hfacts : Outcome.passes (Loading.loadGraph ⟨"/all.js"⟩)
      (.ofFiles ownStar .plain) (fun entry loader =>
        (loader.resolveExport entry "y" ⟨"/m.js"⟩).toOption.any (fun binding =>
          decide (binding = .external "ext" (.named "y"))) &&
        loader.modules.all fun module =>
          decide (module.imports.entries = [])) = true := by
    decide +kernel
  obtain ⟨entry, loader, hload, hfacts⟩ := Outcome.exists_of_passes hfacts
  simp only [Bool.and_eq_true, List.all_eq_true, decide_eq_true_eq,
    Option.any_eq_true, Except.toOption_eq_some_iff] at hfacts
  obtain ⟨⟨_, hresolve, rfl⟩, himports⟩ := hfacts
  have hreachable := Loader.Reachable.of_loadGraph hload
  have hfaithful := hreachable.isFaithful
  have hentry := hfaithful.module_path (Loading.loadGraph_eq_ok hload)
  obtain ⟨trail, last, hfallback⟩ :=
    exists_isFallback himports hfaithful hentry hresolve
  exact ⟨entry, loader, hload, hresolve, trail, last, hfallback,
    ((fallback_last hreachable hentry hresolve).2 trail last hfallback).1⟩

end Witnesses

end Loader

end Bundler
