import Bundler.Proofs.Graph.Loaded
import Bundler.Proofs.Graph.Reads
import Bundler.Proofs.Respelling.Link

/-!
# Loading in another order

A loader that was asked for some modules of a graph beforehand holds them in
another order and perhaps under other paths.  Loading the graph then follows the
same imports, reads what is still missing, and ends with the same modules.
-/

namespace Bundler

section Source

variable (respelling : Respelling) (path : Path) (source : String)

/-- A program is analysed in the same way wherever it lies. -/
theorem Analysis.ofProgram_respell (program : Program) :
    ofProgram (respelling.spell path) source program =
      Except.change (BundleError.respell respelling) (fun analysis => analysis)
        (ofProgram path source program) := by
  rw [ofProgram, ofProgram]
  refine Except.bind_change (Except.mapError_change fun _ => rfl)
    fun found => ?_
  dsimp only
  split
  · rfl
  · exact Except.bind_change (Except.mapError_change fun _ => rfl)
      fun _ => rfl

theorem Module.ofSource_respell (resolver : Resolver) :
    ofSource resolver (respelling.spell path) source =
      Except.change (BundleError.respell respelling)
        (Module.respell respelling) (ofSource resolver path source) := by
  rw [ofSource, ofSource]
  refine Except.bind_change (Except.mapError_change fun _ => rfl)
    fun program => ?_
  refine Except.bind_change
    (Analysis.ofProgram_respell respelling path source program)
      fun analysis => ?_
  simp only [Module.resolve_spell]
  rfl

/-- The text of a module makes the same module under another path to it. -/
theorem Module.ofSource_of_same {resolver : Resolver} {path other : Path}
    {source : String} {module : Module} (hsame : path.same other = true)
    (hmodule : ofSource resolver path source = .ok module) :
    ofSource resolver other source = .ok { module with path := other } := by
  have hpath := (ofSource_eq_ok hmodule).1
  have hchange := ofSource_respell (.swap path other hsame) path source resolver
  have hother : (Respelling.swap path other hsame).spell path = other :=
    Equiv.swap_apply_left path other
  rw [hother, hmodule] at hchange
  rw [hchange, Except.change, Module.respell, hpath, hother]

end Source

namespace Loader

variable {graph loader first second : Loader} {path : Path}
  {calls : List Path} {module image : Module}

/-- All that a loader holds are modules of a graph, perhaps under other paths. -/
def HoldsFrom (graph loader : Loader) : Prop :=
  ∀ entry ∈ loader.loaded, ∃ module, graph.module entry.1 = .ok module ∧
    entry.2 = .ok { module with path := entry.1 }

theorem HoldsFrom.find? (hholds : HoldsFrom graph loader)
    {outcome : Except BundleError Module}
    (hfound : loader.find? path = some outcome) :
    ∃ module known, graph.module path = .ok module ∧
      loader.known? path = some known ∧
      outcome = .ok { module with path := known } := by
  obtain ⟨known, hknown, hmem⟩ := exists_known? hfound
  obtain ⟨module, hmodule, houtcome⟩ := hholds _ hmem
  exact ⟨module, known, module_of_same (same_of_known? hknown) hmodule, hknown,
    houtcome⟩

/-- A loader that has followed the imports of the same modules of a graph as
another one, and holds at least what that one holds.  Calls of its own may have
asked it for modules by other paths. -/
structure Shadows (graph : Loader) (calls : List Path)
    (first second : Loader) : Prop where
  files : second.files = first.files
  resolver : second.resolver = first.resolver
  holds : HoldsFrom graph second
  spelt : ∀ entry ∈ second.loaded, entry.1 ∈ calls ∨ entry ∈ graph.loaded
  covers : ∀ path, second.find? path = none → first.find? path = none
  followed : List.Forall₂ (fun left right => left.same right = true)
    first.followed second.followed

/-- The same module under another path. -/
structure IsImage (image module : Module) : Prop where
  path : image.path.same module.path = true
  rest : image = { module with path := image.path }

theorem Shadows.any_followed (hshadows : Shadows graph calls first second)
    (himage : IsImage image module) :
    second.followed.any (·.same image.path) =
      first.followed.any (·.same module.path) := by
  have hparts := himage.path
  have hfollowed := hshadows.followed
  simp only [Path.same, decide_eq_true_eq] at hparts
  generalize first.followed = marked, second.followed = others at hfollowed ⊢
  induction hfollowed with
  | nil => rfl
  | cons hsame _ ih =>
      simp only [Path.same, decide_eq_true_eq] at hsame
      rw [List.any_cons, List.any_cons, ih]
      simp only [Path.same, hsame, hparts]

theorem Shadows.mark (hshadows : Shadows graph calls first second)
    (himage : IsImage image module) :
    Shadows graph calls
      { first with followed := module.path :: first.followed }
      { second with followed := image.path :: second.followed } where
  files := hshadows.files
  resolver := hshadows.resolver
  holds := hshadows.holds
  spelt := hshadows.spelt
  covers := hshadows.covers
  followed := by
    refine .cons ?_ hshadows.followed
    have hparts := himage.path
    simp only [Path.same, decide_eq_true_eq] at hparts ⊢
    exact hparts.symm

end Loader

namespace Loading

open Loader (Shadows IsImage)

variable {graph before other after : Loader} {path : Path}
  {calls : List Path} {module image : Module}

/-- A loader that was asked for a module is shadowed by one that knows it and
holds at least what the other one held. -/
theorem shadows_of_asked (hshadows : Shadows graph calls before other)
    (hrun : load path before = .ok module after) {shadow : Loader}
    (hfiles : shadow.files = other.files)
    (hresolver : shadow.resolver = other.resolver)
    (hfollowed : shadow.followed = other.followed)
    (hholds : Loader.HoldsFrom graph shadow)
    (hspelt : ∀ entry ∈ shadow.loaded,
      entry.1 ∈ calls ∨ entry ∈ graph.loaded)
    (hnone : ∀ asked, shadow.find? asked = none →
      other.find? asked = none ∧ path.same asked = false) :
    Shadows graph calls after shadow := by
  have hcases := load_cases hrun
  have hkept : after.files = before.files ∧
      after.resolver = before.resolver ∧ after.followed = before.followed := by
    rcases hcases with ⟨_, rfl⟩ | ⟨_, _, rfl⟩ <;> exact ⟨rfl, rfl, rfl⟩
  refine ⟨?_, ?_, hholds, hspelt, fun asked hasked => ?_, ?_⟩
  · rw [hfiles, hkept.1, hshadows.files]
  · rw [hresolver, hkept.2.1, hshadows.resolver]
  · obtain ⟨hother, hdiffers⟩ := hnone asked hasked
    have hbefore := hshadows.covers asked hother
    rcases hcases with ⟨_, rfl⟩ | ⟨_, _, rfl⟩
    · exact hbefore
    · rw [Loader.find?_keeping, hbefore, hdiffers]
      rfl
  · rw [hfollowed, hkept.2.2]
    exact hshadows.followed

section Asking

variable (hgraph : graph.IsFaithful)
  (hshadows : Shadows graph calls before other)
  (hrun : load path before = .ok module after) (hgrows : after.Grows graph)
include hgraph hshadows hrun hgrows

/-- A module that the shadow knows is not read again. -/
theorem load_known_shadows {outcome : Except BundleError Module}
    (hknown : other.find? path = some outcome) :
    ∃ image, load path other = .ok image other ∧
      IsImage image module ∧ Shadows graph calls after other := by
  have hmodule := hgrows.module_eq_ok (load_eq_ok hrun)
  obtain ⟨found, path, hfound, hpath, rfl⟩ := hshadows.holds.find? hknown
  have hsame := Loader.same_of_known? hpath
  obtain rfl := Except.ok.inj (hmodule ▸ hfound)
  refine ⟨_, load_of_find? hknown, ⟨?_, rfl⟩,
    shadows_of_asked hshadows hrun rfl rfl rfl hshadows.holds hshadows.spelt
      fun asked hasked => ⟨hasked, Bool.eq_false_iff.mpr fun hsteps => ?_⟩⟩
  · simpa [Path.same, (hgraph.module_eq_ok hmodule).1] using hsame
  · rw [Loader.find?_of_same hsteps, hasked] at hknown
    cases hknown

omit hgraph in
/-- A module that the shadow does not know is new to the other loader too, and
both read it. -/
theorem load_new_shadows (hnew : other.find? path = none) :
    ∃ shadow, load path other = .ok module shadow ∧
      Shadows graph calls after shadow := by
  have hmodule := hgrows.module_eq_ok (load_eq_ok hrun)
  rcases load_cases hrun with ⟨hold, _⟩ | ⟨_, hread, hafter⟩
  · rw [hshadows.covers path hnew] at hold
    cases hold
  · have hother : other.readModule path = .ok module := by
      rw [← hread, Loader.readModule, Loader.readModule, hshadows.files,
        hshadows.resolver]
    have hpath := (Loader.readModule_eq_ok hread).1
    refine ⟨other.keeping path (.ok module), ?_,
      shadows_of_asked hshadows hrun rfl rfl rfl (fun entry hentry => ?_)
        (fun entry hentry => ?_) fun asked hasked => ?_⟩
    · rw [load_of_new hnew, hother]
      rfl
    · rcases List.mem_append.mp hentry with hold | hlast
      · exact hshadows.holds entry hold
      · rw [List.mem_singleton.mp hlast]
        exact ⟨module, hmodule, by rw [← hpath]⟩
    · rcases List.mem_append.mp hentry with hold | hlast
      · exact hshadows.spelt entry hold
      · right
        apply hgrows.loaded_prefix.subset
        rw [hafter]
        exact List.mem_append_right _ hlast
    · rw [Loader.find?_keeping, Option.or_eq_none_iff] at hasked
      refine ⟨hasked.1, Bool.eq_false_iff.mpr fun hsteps => ?_⟩
      rw [if_pos hsteps] at hasked
      cases hasked.2

/-- Asking for a module gives the same module. -/
theorem load_shadows :
    ∃ image shadow, load path other = .ok image shadow ∧
      IsImage image module ∧ Shadows graph calls after shadow := by
  cases hknown : other.find? path with
  | some outcome =>
      obtain ⟨image, hload, himage, hafter⟩ :=
        load_known_shadows hgraph hshadows hrun hgrows hknown
      exact ⟨image, other, hload, himage, hafter⟩
  | none =>
      obtain ⟨shadow, hload, hafter⟩ :=
        load_new_shadows hshadows hrun hgrows hknown
      exact ⟨module, shadow, hload, ⟨by simp [Path.same], rfl⟩, hafter⟩

end Asking

/-- A loop whose steps go the same way goes the same way. -/
theorem forM_shadows {β : Type} {step : β → Loading PUnit}
    {mirror : β → Loading PUnit} {values : List β}
    (hgrowth : ∀ value, IsGrowth (step value))
    (hstep : ∀ value ∈ values, ∀ {first second later : Loader},
      Shadows graph calls first second → step value first = .ok ⟨⟩ later →
      later.Grows graph →
      ∃ shadow, mirror value second = .ok ⟨⟩ shadow ∧
        Shadows graph calls later shadow)
    (hshadows : Shadows graph calls before other)
    (hrun : values.forM step before = .ok ⟨⟩ after)
    (hgrows : after.Grows graph) :
    ∃ shadow, values.forM mirror other = .ok ⟨⟩ shadow ∧
      Shadows graph calls after shadow := by
  induction values generalizing before other with
  | nil =>
      obtain ⟨_, rfl⟩ := Outcome.pure_eq_ok_iff.mp hrun
      exact ⟨other, rfl, hshadows⟩
  | cons value values ih =>
      obtain ⟨_, between, hfirst, hrest⟩ := Outcome.bind_eq_ok_iff.mp hrun
      have hlater := IsGrowth.forM hgrowth values between
      rw [leave_of_ok hrest] at hlater
      obtain ⟨middle, hmirror, hbetween⟩ :=
        hstep value List.mem_cons_self hshadows hfirst (hlater.trans hgrows)
      obtain ⟨shadow, hothers, hafter⟩ := ih
        (fun other hother => hstep other (List.mem_cons_of_mem value hother))
        hbetween hrest
      exact ⟨shadow, (Outcome.bind_of_ok hmirror).trans hothers, hafter⟩

/-- Following the imports of a module goes the same way. -/
theorem follow_shadows (hgraph : graph.IsFaithful) (steps : Nat)
    (hshadows : Shadows graph calls before other)
    (himage : IsImage image module)
    (hrun : follow steps module before = .ok ⟨⟩ after)
    (hgrows : after.Grows graph) :
    ∃ shadow, follow steps image other = .ok ⟨⟩ shadow ∧
      Shadows graph calls after shadow := by
  induction steps generalizing module image before other after with
  | zero => exact absurd hrun Outcome.throw_ne_ok
  | succ steps ih =>
      rw [follow] at hrun ⊢
      obtain ⟨_, _, hgot, hrun⟩ := Outcome.bind_eq_ok_iff.mp hrun
      obtain ⟨rfl, rfl⟩ := Outcome.get_eq_ok_iff.mp hgot
      rw [Outcome.get_bind]
      dsimp only at hrun ⊢
      rw [hshadows.any_followed himage]
      split at hrun
      · rename_i hmarked
        obtain ⟨_, rfl⟩ := Outcome.pure_eq_ok_iff.mp hrun
        rw [if_pos hmarked]
        exact ⟨other, rfl, hshadows⟩
      · rename_i hmarked
        obtain ⟨_, _, hset, hrun⟩ := Outcome.bind_eq_ok_iff.mp hrun
        obtain rfl := Outcome.set_eq_ok_iff.mp hset
        have hdependencies : image.dependencies = module.dependencies := by
          rw [himage.rest]
        rw [if_neg hmarked, hdependencies]
        refine forM_shadows (IsGrowth.followEntry steps)
          (fun dependency _ first second later hfirst hstep hlater => ?_)
          (hshadows.mark himage) hrun hgrows
        rcases dependency with ⟨_, path | specifier⟩
        · obtain ⟨dependency, between, hload, hfollow⟩ :=
            Outcome.bind_eq_ok_iff.mp hstep
          have hfollows := IsGrowth.follow steps dependency between
          rw [leave_of_ok hfollow] at hfollows
          obtain ⟨found, middle, hfound, hsame, hbetween⟩ :=
            load_shadows hgraph hfirst hload (hfollows.trans hlater)
          obtain ⟨shadow, hafter, hshadow⟩ :=
            ih hbetween hsame hfollow hlater
          exact ⟨shadow, (Outcome.bind_of_ok hfound).trans hafter, hshadow⟩
        · obtain ⟨_, rfl⟩ := Outcome.pure_eq_ok_iff.mp hstep
          exact ⟨second, rfl, hfirst⟩

/-- Loading a graph goes the same way. -/
theorem loadGraph_shadows (hgraph : graph.IsFaithful)
    (hshadows : Shadows graph calls before other)
    (hrun : loadGraph path before = .ok module after)
    (hgrows : after.Grows graph) :
    ∃ image shadow, loadGraph path other = .ok image shadow ∧
      IsImage image module ∧ Shadows graph calls after shadow := by
  rw [loadGraph] at hrun ⊢
  obtain ⟨found, loaded, hload, hrun⟩ := Outcome.bind_eq_ok_iff.mp hrun
  rw [Outcome.get_bind] at hrun
  obtain ⟨_, final, hfollow, hrun⟩ := Outcome.bind_eq_ok_iff.mp hrun
  obtain ⟨rfl, rfl⟩ := Outcome.pure_eq_ok_iff.mp hrun
  have hfollows := IsGrowth.follow (loaded.capacity + 1) found loaded
  rw [leave_of_ok hfollow] at hfollows
  obtain ⟨image, between, himage, hsame, hbetween⟩ :=
    load_shadows hgraph hshadows hload (hfollows.trans hgrows)
  have hcapacity : between.capacity = loaded.capacity := by
    rw [Loader.capacity, Loader.capacity, hbetween.files, hbetween.resolver]
  obtain ⟨shadow, hrunShadow, hshadow⟩ :=
    follow_shadows hgraph _ hbetween hsame hfollow hgrows
  refine ⟨image, shadow, ?_, hsame, hshadow⟩
  rw [Outcome.bind_of_ok himage, Outcome.get_bind, hcapacity,
    Outcome.bind_of_ok hrunShadow]
  rfl

end Loading

section Between

/-- The other one of the paths by which two loaders know the same module. -/
def Loader.spellBetween (first second : Loader) (path : Path) : Path :=
  match first.known? path, second.known? path with
  | some left, some right => Equiv.swap left right path
  | _, _ => path

theorem Loader.parts_spellBetween (first second : Loader) (path : Path) :
    (first.spellBetween second path).parts = path.parts := by
  rw [spellBetween]
  split
  · rename_i left right hleft hright
    have hsameLeft := same_of_known? hleft
    have hsameRight := same_of_known? hright
    simp only [Path.same, decide_eq_true_eq] at hsameLeft hsameRight
    exact (Respelling.swap left right
      (by simp [Path.same, hsameLeft, hsameRight])).parts_spell path
  · rfl

theorem Loader.spellBetween_involutive (first second : Loader) :
    Function.Involutive (first.spellBetween second) := by
  intro path
  have hsame : (first.spellBetween second path).same path = true := by
    simp [Path.same, parts_spellBetween]
  have hfirst := first.known?_of_same hsame
  have hsecond := second.known?_of_same hsame
  rw [spellBetween, hfirst, hsecond, spellBetween]
  cases first.known? path with
  | none => rfl
  | some left =>
      cases second.known? path with
      | none => rfl
      | some right => exact Equiv.swap_apply_self left right path

/-- The change from the paths by which a loader knows modules to those by which
another one does. -/
def Respelling.between (first second : Loader) : Respelling where
  spell := first.spellBetween second
  parts_spell := first.parts_spellBetween second
  injective := (first.spellBetween_involutive second).injective

/-- An outcome that a loader keeps under the other path. -/
def Respelling.entry (respelling : Respelling)
    (entry : Path × Except BundleError Module) :
    Path × Except BundleError Module :=
  (respelling.spell entry.1, Except.change (BundleError.respell respelling)
    (Module.respell respelling) entry.2)

namespace Loader.Shadows

variable {graph shadow : Loader} {calls : List Path} {path : Path}
  {module image : Module} (hgraph : graph.IsFaithful)
  (hshadows : Shadows graph calls graph shadow)
include hgraph hshadows

/-- What a graph knows by a path its shadow knows by the other one. -/
theorem known? (hmodule : graph.module path = .ok module) :
    shadow.known? path =
      some ((Respelling.between graph shadow).spell module.path) := by
  have hsame : module.path.same path = true := by
    simp [Path.same, (hgraph.module_eq_ok hmodule).1]
  obtain ⟨other, hother⟩ : ∃ other, shadow.known? path = some other := by
    rw [← Option.ne_none_iff_exists', ne_eq, ← find?_eq_none_iff_known?]
    intro hnone
    rw [module_eq_ok_iff, hshadows.covers path hnone] at hmodule
    cases hmodule
  have hknown := (hgraph.known? (hgraph.module_path hmodule)).1
  have hspell : (Respelling.between graph shadow).spell module.path =
      graph.spellBetween shadow module.path := rfl
  rw [hspell, spellBetween, hknown, shadow.known?_of_same hsame, hother]
  exact congrArg some (Equiv.swap_apply_left module.path other).symm

/-- An outcome that a graph keeps its shadow keeps under the other path. -/
theorem find?_eq (path : Path) :
    shadow.find? path = (graph.find? path).map
      (Except.change (BundleError.respell (.between graph shadow))
        (Module.respell (.between graph shadow))) := by
  cases hfound : shadow.find? path with
  | none =>
      rw [hshadows.covers path hfound]
      rfl
  | some outcome =>
      obtain ⟨module, known, hmodule, hknown, rfl⟩ :=
        hshadows.holds.find? hfound
      rw [hshadows.known? hgraph hmodule] at hknown
      obtain rfl := Option.some.inj hknown
      rw [module_eq_ok_iff.mp hmodule]
      rfl

/-- A graph and its shadow keep the same outcomes, in some order. -/
theorem loaded_perm (honce : graph.HasReadOnce)
    (hother : shadow.HasReadOnce) :
    shadow.loaded.Perm
      (graph.loaded.map (Respelling.between graph shadow).entry) := by
  have himages : HasReadOnce { graph with
      loaded := graph.loaded.map (Respelling.between graph shadow).entry } := by
    refine List.pairwise_map.mpr (honce.imp fun hdiffer => ?_)
    rwa [Respelling.entry, Respelling.entry, Respelling.same_spell_left,
      Respelling.same_spell_right]
  rw [List.perm_ext_iff_of_nodup hother.nodup himages.nodup]
  rintro ⟨known, outcome⟩
  rw [List.mem_map]
  constructor
  · intro hmem
    obtain ⟨module, hmodule, houtcome⟩ := hshadows.holds _ hmem
    have hknown := hshadows.known? hgraph hmodule
    rw [shadow.known?_of_mem hother hmem] at hknown
    obtain rfl := Option.some.inj hknown
    exact ⟨_, (hgraph.known? hmodule).2, Prod.ext rfl houtcome.symm⟩
  · rintro ⟨⟨path, kept⟩, hmem, heq⟩
    obtain ⟨rfl, rfl⟩ := Prod.mk.inj heq
    have hfound := hshadows.find?_eq hgraph path
    rw [find?_of_mem honce hmem, Option.map_some] at hfound
    obtain ⟨known, hknown, hkept⟩ := exists_known? hfound
    obtain ⟨module, _, hmodule, _, _⟩ := hshadows.holds.find? hfound
    have hpath : module.path = path := by
      have hread := hgraph _ hmem
      have hsame := module_eq_ok_iff.mp hmodule
      rw [find?_of_mem honce hmem] at hsame
      rw [Option.some.inj hsame] at hread
      exact (readModule_eq_ok hread.symm).1
    rw [hshadows.known? hgraph hmodule, hpath] at hknown
    exact Option.some.inj hknown ▸ hkept

/-- The shadow of a graph holds its modules under the other paths. -/
theorem respells (honce : graph.HasReadOnce) (hother : shadow.HasReadOnce) :
    graph.Respells (.between graph shadow) shadow where
  resolver := hshadows.resolver
  find := hshadows.find?_eq hgraph
  fixed path hnone := by
    have hspell : (Respelling.between graph shadow).spell path =
        graph.spellBetween shadow path := rfl
    rw [hspell, spellBetween, find?_eq_none_iff_known?.mp hnone]
  length := by
    rw [(hshadows.loaded_perm hgraph honce hother).length_eq, List.length_map]
  modules := by
    refine ((hshadows.loaded_perm hgraph honce hother).filterMap _).trans ?_
    rw [List.filterMap_map, modules, List.map_filterMap]
    refine List.Perm.of_eq (List.filterMap_congr fun entry _ => ?_)
    obtain ⟨path, outcome⟩ := entry
    cases outcome <;> rfl

omit hgraph in
/-- A graph and its shadow know the same paths if no others were asked for. -/
theorem between_eq_id (honce : graph.HasReadOnce)
    (hcalls : ∀ call ∈ calls, ∃ outcome, (call, outcome) ∈ graph.loaded) :
    Respelling.between graph shadow = .id := by
  have hspell : graph.spellBetween shadow = fun path => path := by
    funext path
    rw [spellBetween]
    split
    · rename_i left right hleft hright
      obtain ⟨outcome, hkept⟩ := exists_of_known? hright
      obtain ⟨kept, hmem⟩ : ∃ kept, (right, kept) ∈ graph.loaded :=
        (hshadows.spelt _ hkept).elim (hcalls right) fun hmem => ⟨_, hmem⟩
      have hknown := known?_of_mem honce hmem
      rw [known?_of_same (same_of_known? hright), hleft] at hknown
      rw [Option.some.inj hknown, Equiv.swap_self]
      rfl
    · rfl
  simp only [Respelling.between, Respelling.id, hspell]

end Loader.Shadows

end Between

end Bundler
