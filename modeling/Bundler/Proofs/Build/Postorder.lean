import Bundler.Build.Order
import Bundler.Proofs.Graph.Loaded
import Mathlib.Data.List.Nodup
import Mathlib.Data.List.Perm.Subperm

/-!
# Order of modules

The walk through the imports leaves a module after all that it imports, except
for modules that are entered and not left yet.  These are open: they reach the
module at hand, so an import that leads to one of them closes a circle.
-/

namespace Bundler

/-- A list has a value before another one. -/
def Precedes {α : Type} (values : List α) (first second : α) : Prop :=
  ∃ before after, values = before ++ after ∧ first ∈ before ∧ second ∈ after

namespace Precedes

variable {α β : Type} {values others : List α} {first second third : α}

theorem append_right (hprecedes : Precedes values first second) :
    Precedes (values ++ others) first second := by
  obtain ⟨before, after, rfl, hfirst, hsecond⟩ := hprecedes
  exact ⟨before, after ++ others, List.append_assoc _ _ _, hfirst,
    List.mem_append_left others hsecond⟩

theorem of_mem_append (hfirst : first ∈ values) (hsecond : second ∈ others) :
    Precedes (values ++ others) first second :=
  ⟨values, others, rfl, hfirst, hsecond⟩

theorem mem_left (hprecedes : Precedes values first second) :
    first ∈ values := by
  obtain ⟨before, after, rfl, hfirst, _⟩ := hprecedes
  exact List.mem_append_left after hfirst

theorem trans (hnodup : values.Nodup)
    (hfirst : Precedes values first second)
    (hsecond : Precedes values second third) :
    Precedes values first third := by
  obtain ⟨before, after, rfl, hbefore, hafter⟩ := hfirst
  obtain ⟨front, rest, hsplit, hfront, hrest⟩ := hsecond
  rcases List.append_eq_append_iff.mp hsplit with
    ⟨middle, rfl, _⟩ | ⟨middle, rfl, _⟩
  · exact ⟨before ++ middle, rest, hsplit, List.mem_append_left _ hbefore,
      hrest⟩
  · -- The second value would be on both sides of the first cut.
    exact absurd rfl ((List.nodup_append.mp hnodup).2.2 second
      (List.mem_append_left _ hfront) second hafter)

/-- What comes of values is in the order of the values. -/
theorem flatMap {expand : α → List β} {left right : β}
    (hprecedes : Precedes values first second)
    (hleft : left ∈ expand first) (hright : right ∈ expand second) :
    Precedes (values.flatMap expand) left right := by
  obtain ⟨before, after, rfl, hfirst, hsecond⟩ := hprecedes
  exact ⟨before.flatMap expand, after.flatMap expand, List.flatMap_append,
    List.mem_flatMap.mpr ⟨first, hfirst, hleft⟩,
    List.mem_flatMap.mpr ⟨second, hsecond, hright⟩⟩

end Precedes

namespace Loader

variable {loader : Loader} {entry module dependency : Module}
  {modules : List Module}

/-- A list of just the modules that one reaches, each once and after what it
imports, unless the import closes a circle. -/
structure IsPostorder (loader : Loader) (entry : Module)
    (modules : List Module) : Prop where
  once : (modules.map (·.path)).Nodup
  reached : ∀ module, module ∈ modules ↔ loader.Reaches entry module
  ordered : ∀ module ∈ modules, ∀ dependency,
    loader.Imports module dependency →
    Precedes modules dependency module ∨ loader.Reaches dependency module

namespace IsPostorder

theorem nodup (hpostorder : loader.IsPostorder entry modules) :
    modules.Nodup :=
  hpostorder.once.of_map _

/-- Without circles everything that a module reaches comes before it. -/
theorem precedes_of_reaches (hpostorder : loader.IsPostorder entry modules)
    (hacyclic : ∀ module ∈ modules, ∀ dependency,
      loader.Imports module dependency → ¬ loader.Reaches dependency module)
    (hmodule : module ∈ modules)
    (hreaches : loader.Reaches module dependency) :
    module = dependency ∨ Precedes modules dependency module := by
  induction hreaches with
  | refl => exact .inl rfl
  | @tail between last hbetween himports ih =>
      have hreached : between ∈ modules :=
        (hpostorder.reached between).mpr
          (((hpostorder.reached module).mp hmodule).trans hbetween)
      have hlast := (hpostorder.ordered between hreached last himports).resolve_right
        (hacyclic between hreached last himports)
      cases ih with
      | inl hsame => exact .inr (hsame ▸ hlast)
      | inr hbefore => exact .inr (hlast.trans hpostorder.nodup hbefore)

end IsPostorder

end Loader

namespace ModuleWalk

variable {loader : Loader} {entry module : Module} {opened : List Module}
  {walk before after : ModuleWalk}

/-- A walk from an entry module within some open modules.  It has entered these
and the ones it has left, and what the latter import it has come by. -/
structure IsUnder (loader : Loader) (entry : Module) (opened : List Module)
    (walk : ModuleWalk) : Prop where
  entered : walk.entered.Perm ((walk.modules ++ opened).map (·.path))
  nodup : walk.entered.Nodup
  loaded : ∀ module ∈ walk.modules ++ opened,
    loader.module module.path = .ok module
  reached : ∀ module ∈ walk.modules ++ opened, loader.Reaches entry module
  followed : ∀ module ∈ walk.modules, ∀ dependency,
    loader.Imports module dependency → dependency ∈ walk.modules ++ opened
  ordered : ∀ module ∈ walk.modules, ∀ dependency,
    loader.Imports module dependency →
    Precedes walk.modules dependency module ∨
      loader.Reaches dependency module
  externals : ∀ module ∈ walk.modules, ∀ source specifier,
    (source, .external specifier) ∈ module.dependencies →
    specifier ∈ walk.externals

namespace IsUnder

theorem start (loader : Loader) (entry : Module) :
    IsUnder loader entry [] start where
  entered := .nil
  nodup := List.nodup_nil
  loaded _ hmodule := absurd hmodule List.not_mem_nil
  reached _ hmodule := absurd hmodule List.not_mem_nil
  followed _ hmodule := absurd hmodule List.not_mem_nil
  ordered _ hmodule := absurd hmodule List.not_mem_nil
  externals _ hmodule := absurd hmodule List.not_mem_nil

/-- A module that is loaded and whose path was entered is one that was left or
is open. -/
theorem mem_of_entered (hunder : IsUnder loader entry opened walk)
    (hmodule : loader.module module.path = .ok module)
    (hentered : module.path ∈ walk.entered) :
    module ∈ walk.modules ++ opened := by
  obtain ⟨other, hother, hpath⟩ :=
    List.mem_map.mp (hunder.entered.mem_iff.mp hentered)
  have hfound := hunder.loaded other hother
  rw [hpath, hmodule] at hfound
  exact Except.ok.inj hfound ▸ hother

/-- A walk opens a module that it has not entered yet. -/
theorem enter (hunder : IsUnder loader entry opened walk)
    (hmodule : loader.module module.path = .ok module)
    (hreached : loader.Reaches entry module)
    (hnew : module.path ∉ walk.entered) :
    IsUnder loader entry (module :: opened)
      { walk with entered := module.path :: walk.entered } where
  entered := by
    refine (hunder.entered.cons module.path).trans ?_
    rw [← List.map_cons (f := fun module : Module => module.path)]
    exact List.perm_middle.symm.map _
  nodup := List.nodup_cons.mpr ⟨hnew, hunder.nodup⟩
  loaded other hother := by
    rcases List.mem_cons.mp (List.perm_middle.mem_iff.mp hother) with rfl | hold
    · exact hmodule
    · exact hunder.loaded other hold
  reached other hother := by
    rcases List.mem_cons.mp (List.perm_middle.mem_iff.mp hother) with rfl | hold
    · exact hreached
    · exact hunder.reached other hold
  followed other hother dependency himports :=
    List.perm_middle.mem_iff.mpr (List.mem_cons_of_mem module
      (hunder.followed other hother dependency himports))
  ordered := hunder.ordered
  externals := hunder.externals

/-- A walk leaves a module once it has come by all that the module imports. -/
theorem leave (hunder : IsUnder loader entry (module :: opened) walk)
    (hopened : ∀ other ∈ opened, loader.Reaches other module)
    (himported : ∀ dependency, loader.Imports module dependency →
      dependency ∈ walk.modules ++ module :: opened)
    (hexternals : ∀ source specifier,
      (source, .external specifier) ∈ module.dependencies →
      specifier ∈ walk.externals) :
    IsUnder loader entry opened
      { walk with modules := walk.modules ++ [module] } := by
  have hsame : walk.modules ++ [module] ++ opened =
      walk.modules ++ module :: opened := by simp
  constructor
  case entered => rw [hsame]; exact hunder.entered
  case nodup => exact hunder.nodup
  case loaded => rw [hsame]; exact hunder.loaded
  case reached => rw [hsame]; exact hunder.reached
  case followed =>
    intro other hother
    rw [hsame]
    cases List.mem_append.mp hother with
    | inl hold => exact hunder.followed other hold
    | inr hlast =>
        rw [List.mem_singleton.mp hlast]
        exact himported
  case ordered =>
    intro other hother dependency himports
    cases List.mem_append.mp hother with
    | inl hold =>
        exact (hunder.ordered other hold dependency himports).imp_left
          (·.append_right)
    | inr hlast =>
        obtain rfl := List.mem_singleton.mp hlast
        rcases List.mem_append.mp (himported dependency himports) with
          hleft | hopen
        · exact .inl (.of_mem_append hleft List.mem_cons_self)
        · rcases List.mem_cons.mp hopen with rfl | hopen
          · exact .inr .refl
          · exact .inr (hopened dependency hopen)
  case externals =>
    intro other hother
    cases List.mem_append.mp hother with
    | inl hold => exact hunder.externals other hold
    | inr hlast =>
        rw [List.mem_singleton.mp hlast]
        exact hexternals

theorem addExternal (hunder : IsUnder loader entry opened walk)
    (specifier : String) :
    IsUnder loader entry opened
      { walk with externals := pushNew walk.externals specifier } :=
  { hunder with
    externals := fun module hmodule source other hother =>
      mem_pushNew.mpr (.inl (hunder.externals module hmodule source other hother)) }

end IsUnder

/-- The passage from a walk to a later one. -/
structure Continues (before after : ModuleWalk) : Prop where
  modules : ∀ module ∈ before.modules, module ∈ after.modules
  externals : ∀ specifier ∈ before.externals, specifier ∈ after.externals
  entered : before.entered.length ≤ after.entered.length

theorem Continues.refl (walk : ModuleWalk) : Continues walk walk :=
  ⟨fun _ => id, fun _ => id, Nat.le_refl _⟩

theorem Continues.trans {first second third : ModuleWalk}
    (hfirst : Continues first second) (hsecond : Continues second third) :
    Continues first third where
  modules module hmodule := hsecond.modules module (hfirst.modules module hmodule)
  externals specifier hspecifier :=
    hsecond.externals specifier (hfirst.externals specifier hspecifier)
  entered := Nat.le_trans hfirst.entered hsecond.entered

/-- What a walk within some open modules has come by of a module's
dependencies. -/
def HasMet (loader : Loader) (opened : List Module)
    (entry : String × Dependency) (walk : ModuleWalk) : Prop :=
  match entry.2 with
  | .external specifier => specifier ∈ walk.externals
  | .internal path => ∃ dependency, loader.module path = .ok dependency ∧
      dependency ∈ walk.modules ++ opened

theorem HasMet.mono {dependency : String × Dependency}
    (hcontinues : Continues before after)
    (hmet : HasMet loader opened dependency before) :
    HasMet loader opened dependency after := by
  obtain ⟨source, dependency⟩ := dependency
  cases dependency with
  | external specifier => exact hcontinues.externals specifier hmet
  | internal path =>
      obtain ⟨dependency, hfound, hmem⟩ := hmet
      refine ⟨dependency, hfound, ?_⟩
      exact List.mem_append.mpr ((List.mem_append.mp hmem).imp_left
        (hcontinues.modules dependency))

section Visit

variable (hfaithful : loader.IsFaithful)
include hfaithful

/-- What visiting a module does: it is left, and the walk is again within the
modules that were open before. -/
theorem visit_spec {steps : Nat} (hunder : IsUnder loader entry opened before)
    (hmodule : loader.module module.path = .ok module)
    (hreached : loader.Reaches entry module)
    (hopened : ∀ other ∈ opened, loader.Reaches other module)
    (hnew : module.path ∉ before.entered)
    (hvisit : visit loader steps module before = .ok after) :
    IsUnder loader entry opened after ∧ Continues before after ∧
      module ∈ after.modules := by
  induction steps generalizing module opened before after with
  | zero => cases hvisit
  | succ steps ih =>
      rw [visit] at hvisit
      obtain ⟨left, hfold, hleave⟩ := Except.bind_eq_ok_iff.mp hvisit
      obtain ⟨hleft, hcontinues, hmet⟩ := Except.foldlM_spec
        (IsUnder loader entry (module :: opened)) Continues
        (HasMet loader (module :: opened)) .refl .trans .mono
        (fun dependency hdependency {walk next} hwalk hstep => by
          obtain ⟨source, dependency⟩ := dependency
          cases dependency with
          | external specifier =>
              obtain rfl := Except.ok.inj hstep
              exact ⟨hwalk.addExternal specifier,
                ⟨fun _ => id, fun _ hother => mem_pushNew.mpr (.inl hother),
                  Nat.le_refl _⟩, mem_pushNew.mpr (.inr rfl)⟩
          | internal path =>
              obtain ⟨dependency, hfound, hstep⟩ :=
                Except.bind_eq_ok_iff.mp hstep
              have hloaded := hfaithful.module_path hfound
              have himports : loader.Imports module dependency :=
                ⟨source, path, hdependency, hfound⟩
              split at hstep
              · rename_i hentered
                obtain rfl := Except.ok.inj hstep
                refine ⟨hwalk, .refl walk, dependency, hfound, ?_⟩
                exact hwalk.mem_of_entered hloaded
                  (List.contains_iff_mem.mp hentered)
              · rename_i hentered
                obtain ⟨hnext, hlater, hmem⟩ := ih hwalk hloaded
                  (hreached.tail himports)
                  (fun other hother => by
                    rcases List.mem_cons.mp hother with rfl | hother
                    · exact .single himports
                    · exact (hopened other hother).tail himports)
                  (fun hmem => hentered (List.contains_iff_mem.mpr hmem)) hstep
                exact ⟨hnext, hlater, dependency, hfound,
                  List.mem_append_left _ hmem⟩)
        (hunder.enter hmodule hreached hnew) hfold
      obtain rfl := Except.ok.inj hleave
      refine ⟨hleft.leave hopened ?_ ?_, ?_, ?_⟩
      · rintro dependency ⟨source, path, hmem, hfound⟩
        obtain ⟨other, hother, hlisted⟩ := hmet _ hmem
        rw [hfound] at hother
        exact Except.ok.inj hother ▸ hlisted
      · exact fun source specifier hmem => hmet _ hmem
      · exact ⟨fun other hother =>
          List.mem_append_left _ (hcontinues.modules other hother),
          hcontinues.externals,
          Nat.le_trans (Nat.le_succ _) hcontinues.entered⟩
      · exact List.mem_append_right _ List.mem_cons_self

omit hfaithful in
/-- At the end of a walk nothing is open, so all that the entry module reaches
is listed. -/
theorem IsUnder.isPostorder (hunder : IsUnder loader entry [] walk)
    (hentry : entry ∈ walk.modules) :
    loader.IsPostorder entry walk.modules := by
  have hentered := hunder.entered
  rw [List.append_nil] at hentered
  refine ⟨hentered.nodup_iff.mp hunder.nodup, fun module => ⟨?_, ?_⟩,
    hunder.ordered⟩
  · exact fun hmodule => hunder.reached module (List.mem_append_left _ hmodule)
  · intro hreaches
    induction hreaches with
    | refl => exact hentry
    | tail _ himports ih =>
        simpa using hunder.followed _ ih _ himports

/-- A walk from the entry module lists what it reaches in its order, and comes by
all modules outside the bundle that these import. -/
theorem ofEntry_isPostorder (hentry : loader.module entry.path = .ok entry)
    (hwalk : ofEntry loader entry = .ok walk) :
    loader.IsPostorder entry walk.modules ∧
      ∀ module ∈ walk.modules, ∀ source specifier,
        (source, .external specifier) ∈ module.dependencies →
        specifier ∈ walk.externals := by
  obtain ⟨hunder, _, hmem⟩ := visit_spec hfaithful (.start loader entry)
    hentry .refl (by simp) (by simp [start]) hwalk
  exact ⟨hunder.isPostorder hmem, hunder.externals⟩

/-- A walk enters no more modules than are loaded. -/
theorem IsUnder.length_entered_le (hunder : IsUnder loader entry opened walk) :
    walk.entered.length ≤ loader.loaded.length := by
  have hsubset : walk.entered ⊆ loader.loaded.map (·.1) := by
    intro path hpath
    obtain ⟨module, hmodule, rfl⟩ :=
      List.mem_map.mp (hunder.entered.mem_iff.mp hpath)
    exact hfaithful.path_mem_loaded (hunder.loaded module hmodule)
  simpa using (hunder.nodup.subperm hsubset).length_le

/-- A visit succeeds if all that it can come by is loaded and there are as many
levels left as there are modules not yet entered. -/
theorem exists_visit_eq_ok (hcomplete : loader.IsComplete entry) {steps : Nat}
    (hunder : IsUnder loader entry opened before)
    (hmodule : loader.module module.path = .ok module)
    (hreached : loader.Reaches entry module)
    (hopened : ∀ other ∈ opened, loader.Reaches other module)
    (hnew : module.path ∉ before.entered)
    (hsteps : loader.loaded.length < steps + before.entered.length) :
    ∃ after, visit loader steps module before = .ok after := by
  induction steps generalizing module opened before with
  | zero =>
      have hlength := hunder.length_entered_le hfaithful
      omega
  | succ steps ih =>
      obtain ⟨left, hfold, _⟩ := Except.exists_foldlM_eq_ok
        (fun walk : ModuleWalk => IsUnder loader entry (module :: opened) walk ∧
          before.entered.length + 1 ≤ walk.entered.length)
        (fun walk (entry : String × Dependency) =>
          match entry.2 with
          | .external specifier =>
              .ok { walk with externals := pushNew walk.externals specifier }
          | .internal path => do
              let dependency ← loader.module path
              if walk.entered.contains dependency.path then return walk
              else visit loader steps dependency walk)
        module.dependencies
        (fun dependency hdependency walk ⟨hwalk, hlength⟩ => by
          obtain ⟨source, dependency⟩ := dependency
          cases dependency with
          | external specifier =>
              exact ⟨_, rfl, hwalk.addExternal specifier, hlength⟩
          | internal path =>
              obtain ⟨dependency, hfound⟩ :=
                hcomplete module hreached source path hdependency
              have hloaded := hfaithful.module_path hfound
              have himports : loader.Imports module dependency :=
                ⟨source, path, hdependency, hfound⟩
              by_cases hentered : dependency.path ∈ walk.entered
              · exact ⟨walk, by simp [hfound, hentered, bind, Except.bind,
                  pure, Except.pure], hwalk, hlength⟩
              · have hreaches : ∀ other ∈ module :: opened,
                    loader.Reaches other dependency := by
                  intro other hother
                  rcases List.mem_cons.mp hother with rfl | hother
                  · exact .single himports
                  · exact (hopened other hother).tail himports
                obtain ⟨next, hnext⟩ := ih hwalk hloaded
                  (hreached.tail himports) hreaches hentered (by omega)
                obtain ⟨hunderNext, hcontinues, _⟩ := visit_spec hfaithful hwalk
                  hloaded (hreached.tail himports) hreaches hentered hnext
                exact ⟨next, by simpa [hfound, hentered, bind, Except.bind]
                  using hnext, hunderNext,
                  Nat.le_trans hlength hcontinues.entered⟩)
        ⟨hunder.enter hmodule hreached hnew, Nat.le_refl _⟩
      refine ⟨{ left with modules := left.modules ++ [module] }, ?_⟩
      rw [visit]
      exact Except.bind_eq_ok_iff.mpr ⟨left, hfold, rfl⟩

/-- The walk through a complete graph succeeds. -/
theorem exists_ofEntry_eq_ok (hcomplete : loader.IsComplete entry)
    (hentry : loader.module entry.path = .ok entry) :
    ∃ walk, ofEntry loader entry = .ok walk :=
  exists_visit_eq_ok hfaithful hcomplete (.start loader entry) hentry .refl
    (by simp) (by simp [start]) (Nat.lt_succ_self _)

end Visit

end ModuleWalk

end Bundler
