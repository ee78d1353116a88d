import Bundler.Proofs.Shake.Closed
import Bundler.Proofs.Shake.Run

/-!
# Seeding

The walk through bare imports comes by the modules whose effects take place.
A module that it has come by has its statements with effects met and its bare
imports followed, also if imports go in a circle: a module that is being walked
through further up has all this at the end.
-/

namespace Bundler

namespace Shaking

variable {loader : Loader} {entry : Module}

/-- The needs that the effects of the seeded modules are. -/
def EffectNeed (loader : Loader) (entry : Module) (need : Need) : Prop :=
  ∃ module id, IsSeeded loader entry module ∧ HasEffect module id ∧
    need = .statement module.path id

theorem IsSeeded.module_path (hfaithful : loader.IsFaithful)
    {module : Module} (hentry : loader.module entry.path = .ok entry)
    (hseeded : IsSeeded loader entry module) :
    loader.module module.path = .ok module := by
  cases hseeded with
  | entry => exact hentry
  | bare _ htarget =>
      obtain ⟨_, _, source, _, htarget⟩ := htarget
      exact hfaithful.module_path (loader.module_of_target htarget).choose_spec

end Shaking

namespace Shaker

variable {loader : Loader} {entry module : Module}
  {first second third : Shaker}

/-- What is to be done for a module whose effects take place. -/
structure HasSeeded (loader : Loader) (shaker : Shaker) (module : Module) :
    Prop where
  effects : ∀ {id : Nat}, Shaking.HasEffect module id →
    shaker.Met (.statement module.path id)
  targets : ∀ {dependency : Module},
    Shaking.IsBareTarget loader module dependency →
    dependency.path ∈ shaker.seeded

/-- The passage from a state to a later one by seeding. -/
structure Spreads (loader : Loader) (entry : Module)
    (before after : Shaker) : Prop where
  progress : before.Extends loader (Shaking.EffectNeed loader entry) after
  kept : ∀ path ∈ before.seeded, path ∈ after.seeded
  seeded : ∀ path ∈ after.seeded, path ∈ before.seeded ∨
    ∃ module, loader.module path = .ok module ∧ module.path = path ∧
      after.HasSeeded loader module

namespace Spreads

theorem refl (shaker : Shaker) : Spreads loader entry shaker shaker :=
  ⟨.refl shaker, fun _ hpath => hpath, fun _ hpath => .inl hpath⟩

/-- What was done for a module stays done. -/
theorem hasSeeded (hspreads : Spreads loader entry first second)
    (hdone : first.HasSeeded loader module) :
    second.HasSeeded loader module where
  effects heffect := hspreads.progress.met _ (hdone.effects heffect)
  targets htarget := hspreads.kept _ (hdone.targets htarget)

theorem trans (hfirst : Spreads loader entry first second)
    (hsecond : Spreads loader entry second third) :
    Spreads loader entry first third where
  progress := hfirst.progress.trans hsecond.progress
  kept path hpath := hsecond.kept path (hfirst.kept path hpath)
  seeded := by
    intro path hpath
    cases hsecond.seeded path hpath with
    | inl hbefore =>
        apply (hfirst.seeded path hbefore).imp_right
        rintro ⟨module, hmodule, hsame, hdone⟩
        exact ⟨module, hmodule, hsame, hsecond.hasSeeded hdone⟩
    | inr hnew => exact .inr hnew

/-- The walk counts a module as seeded before it seeds it. -/
theorem of_marked {before after : Shaker}
    (hspreads : Spreads loader entry
      { before with seeded := module.path :: before.seeded } after)
    (hmodule : loader.module module.path = .ok module)
    (hseeded : after.HasSeeded loader module) :
    Spreads loader entry before after := by
  constructor
  · have hmarked : before.Extends loader (Shaking.EffectNeed loader entry)
        { before with seeded := module.path :: before.seeded } :=
      .of_eq rfl rfl rfl (.refl before.names)
    exact hmarked.trans hspreads.progress
  · intro path hpath
    exact hspreads.kept path (List.mem_cons_of_mem _ hpath)
  · intro path hpath
    cases hspreads.seeded path hpath with
    | inl hbefore =>
        rcases List.mem_cons.mp hbefore with rfl | hold
        · exact .inr ⟨module, hmodule, rfl, hseeded⟩
        · exact .inl hold
    | inr hnew => exact .inr hnew

end Spreads

end Shaker

namespace Shaking

variable {loader : Loader} {entry : Module}

/-- What seeding does for one statement of a module. -/
structure HasSeededStatement (loader : Loader) (module : Module)
    (numbered : Nat × Statement) (shaker : Shaker) : Prop where
  effect : numbered.2.kind.isModuleSyntax = false →
    numbered.2.isRemovable = false →
    shaker.Met (.statement module.path numbered.1)
  target : ∀ {source : String} {dependency : Module},
    numbered.2.kind = .importing source true →
    loader.target module source = .ok (.internal dependency) →
    dependency.path ∈ shaker.seeded

theorem HasSeededStatement.mono {module : Module}
    {numbered : Nat × Statement} {before after : Shaker}
    (hspreads : before.Spreads loader entry after)
    (hdone : HasSeededStatement loader module numbered before) :
    HasSeededStatement loader module numbered after where
  effect hkind heffect := hspreads.progress.met _ (hdone.effect hkind heffect)
  target hkind htarget := hspreads.kept _ (hdone.target hkind htarget)

/-- A module is seeded once all its statements are. -/
theorem hasSeeded_of_statements {module : Module} {shaker : Shaker}
    (hdone : ∀ numbered ∈
      (List.range module.statements.length).zip module.statements,
      HasSeededStatement loader module numbered shaker) :
    shaker.HasSeeded loader module := by
  constructor
  · rintro id ⟨statement, hstatement, hkind, heffect⟩
    exact (hdone (id, statement)
      (Analysis.mem_zip_range_iff.mpr hstatement)).effect hkind heffect
  · rintro dependency ⟨statement, hmem, source, hkind, htarget⟩
    obtain ⟨id, hstatement⟩ := List.mem_iff_getElem?.mp hmem
    exact (hdone (id, statement)
      (Analysis.mem_zip_range_iff.mpr hstatement)).target hkind htarget

/-- A bare import has the module that it leads to seeded. -/
theorem seedTarget_spreads {seed : Module → Shaking Unit}
    {module : Module} {id : Nat} {statement : Statement} {source : String}
    (hseeded : IsSeeded loader entry module)
    (hstatement : module.statements[id]? = some statement)
    (hkind : statement.kind = .importing source true)
    (hseed : ∀ {dependency : Module}, IsSeeded loader entry dependency →
      ∀ {before after : Shaker} {result : Unit}, before.IsSound loader →
        seed dependency before = .ok result after →
          after.IsSound loader ∧ before.Spreads loader entry after ∧
            dependency.path ∈ after.seeded)
    {before after : Shaker} {result : Unit} (hsound : before.IsSound loader)
    (hrun : (do
      match ← ofExcept (loader.target module source) with
      | .internal dependency => seed dependency
      | .external _ => return) before = .ok result after) :
    after.IsSound loader ∧ before.Spreads loader entry after ∧
      HasSeededStatement loader module (id, statement) after := by
  have hnoEffect : statement.kind.isModuleSyntax ≠ false := by
    simp [hkind, StatementKind.isModuleSyntax]
  obtain ⟨target, _, hlookup, hrun⟩ := Outcome.bind_eq_ok_iff.mp hrun
  obtain ⟨htarget, rfl⟩ := ofExcept_eq_ok_iff.mp hlookup
  cases target with
  | internal dependency =>
      have hbare : IsBareTarget loader module dependency :=
        ⟨statement, List.mem_of_getElem? hstatement, source, hkind, htarget⟩
      obtain ⟨hsoundAfter, hspreads, hcontains⟩ :=
        hseed (.bare hseeded hbare) hsound hrun
      refine ⟨hsoundAfter, hspreads,
        fun himporting _ => absurd himporting hnoEffect, ?_⟩
      intro other found hother hfound
      rw [hkind] at hother
      obtain rfl := (StatementKind.importing.inj hother).1
      rw [htarget] at hfound
      obtain rfl := Target.internal.inj (Except.ok.inj hfound)
      exact hcontains
  | external specifier =>
      obtain ⟨_, rfl⟩ := Outcome.pure_eq_ok_iff.mp hrun
      refine ⟨hsound, .refl before,
        fun himporting _ => absurd himporting hnoEffect, ?_⟩
      intro other found hother hfound
      rw [hkind] at hother
      obtain rfl := (StatementKind.importing.inj hother).1
      rw [htarget] at hfound
      cases hfound

section Seeding

variable (hfaithful : loader.IsFaithful)
  (hentry : loader.module entry.path = .ok entry)
include hfaithful hentry

theorem expand_spreads {module : Module} {id : Nat}
    (hseeded : IsSeeded loader entry module) (heffect : HasEffect module id)
    {before after : Shaker} {result : Unit} (hsound : before.IsSound loader)
    (hrun : expand loader module id before = .ok result after) :
    after.IsSound loader ∧ before.Spreads loader entry after ∧
      after.Met (.statement module.path id) := by
  obtain ⟨statement, hstatement, _⟩ := heffect
  have hmodule := hseeded.module_path hfaithful hentry
  have hexists : Exists loader (.statement module.path id) :=
    .statement hmodule (List.getElem?_eq_some_iff.mp hstatement).1
  obtain ⟨hsoundAfter, hextends, hmet, hsame⟩ :=
    meet_does hfaithful _ _ hexists hrun hsound
  have hprogress : before.Extends loader (EffectNeed loader entry) after := by
    apply hextends.weaken
    rintro _ rfl
    exact .asked ⟨module, id, hseeded, ⟨statement, hstatement, ‹_›⟩, rfl⟩
  have hspreads : before.Spreads loader entry after :=
    ⟨hprogress, fun _ hpath => hsame ▸ hpath,
      fun _ hpath => .inl (hsame ▸ hpath)⟩
  exact ⟨hsoundAfter, hspreads, hmet _ rfl⟩

/-- A statement that is no module syntax is included if it has an effect. -/
theorem seedEffect_spreads {module : Module} {id : Nat}
    {statement : Statement} (hseeded : IsSeeded loader entry module)
    (hstatement : module.statements[id]? = some statement)
    (hkind : statement.kind.isModuleSyntax = false)
    {before after : Shaker} {result : Unit} (hsound : before.IsSound loader)
    (hrun : (if statement.isRemovable then pure ()
      else expand loader module id) before = .ok result after) :
    after.IsSound loader ∧ before.Spreads loader entry after ∧
      HasSeededStatement loader module (id, statement) after := by
  have hnoTarget : ∀ {source : String},
      statement.kind ≠ .importing source true := by
    intro source himporting
    simp [himporting, StatementKind.isModuleSyntax] at hkind
  split at hrun
  · rename_i hremovable
    obtain ⟨_, rfl⟩ := Outcome.pure_eq_ok_iff.mp hrun
    refine ⟨hsound, .refl before, ?_, ?_⟩
    · intro _ heffect
      rw [hremovable] at heffect
      exact absurd heffect (by simp)
    · exact fun himporting _ => absurd himporting hnoTarget
  · rename_i hremovable
    have heffect : HasEffect module id :=
      ⟨statement, hstatement, hkind, by simpa using hremovable⟩
    obtain ⟨hsoundAfter, hspreads, hmet⟩ :=
      expand_spreads hfaithful hentry hseeded heffect hsound hrun
    exact ⟨hsoundAfter, hspreads, fun _ _ => hmet,
      fun himporting _ => absurd himporting hnoTarget⟩

/-- The walk through bare imports meets the effects of the modules that it comes
by, and it comes by the module that it starts from. -/
theorem seedEffects_spreads (steps : Nat) {module : Module}
    (hseeded : IsSeeded loader entry module) {before after : Shaker}
    {result : Unit} (hsound : before.IsSound loader)
    (hrun : seedEffects loader steps module before = .ok result after) :
    after.IsSound loader ∧ before.Spreads loader entry after ∧
      module.path ∈ after.seeded := by
  induction steps generalizing module before after result with
  | zero => exact absurd hrun Outcome.throw_ne_ok
  | succ steps ih =>
      have hmodule := hseeded.module_path hfaithful hentry
      rw [seedEffects] at hrun
      obtain ⟨_, _, hget, hrun⟩ := Outcome.bind_eq_ok_iff.mp hrun
      obtain ⟨rfl, rfl⟩ := Outcome.get_eq_ok_iff.mp hget
      split at hrun
      · rename_i hcontains
        obtain ⟨_, rfl⟩ := Outcome.pure_eq_ok_iff.mp hrun
        exact ⟨hsound, .refl before, by simpa using hcontains⟩
      · obtain ⟨_, marked, hmark, hrun⟩ := Outcome.bind_eq_ok_iff.mp hrun
        have hmarked := Outcome.modify_eq_ok_iff.mp hmark
        have hsoundMarked : marked.IsSound loader := by
          rw [← hmarked]
          exact ⟨hsound.nodup, hsound.started, hsound.found, hsound.resolved,
            hsound.offered⟩
        have hloop : after.IsSound loader ∧
            marked.Spreads loader entry after ∧
            ∀ numbered ∈
              (List.range module.statements.length).zip module.statements,
              HasSeededStatement loader module numbered after := by
          refine Outcome.forM_spec (Shaker.IsSound loader)
            (Shaker.Spreads loader entry) (HasSeededStatement loader module)
            .refl .trans .mono ?_ hsoundMarked hrun
          rintro ⟨id, statement⟩ hnumbered before after result hsound hrun
          have hstatement := Analysis.mem_zip_range_iff.mp hnumbered
          cases hkind : statement.kind with
          | plain | exportedDeclaration _ | defaultValue _ =>
              simp only [hkind] at hrun
              exact seedEffect_spreads hfaithful hentry hseeded hstatement
                (by rw [hkind]; rfl) hsound hrun
          | exportList =>
              simp only [hkind] at hrun
              obtain ⟨_, rfl⟩ := Outcome.pure_eq_ok_iff.mp hrun
              refine ⟨hsound, .refl before, ?_, ?_⟩
              · simp [hkind, StatementKind.isModuleSyntax]
              · simp [hkind]
          | importing source isBare =>
              cases isBare with
              | false =>
                  simp only [hkind] at hrun
                  obtain ⟨_, rfl⟩ := Outcome.pure_eq_ok_iff.mp hrun
                  refine ⟨hsound, .refl before, ?_, ?_⟩
                  · simp [hkind, StatementKind.isModuleSyntax]
                  · simp [hkind]
              | true =>
                  simp only [hkind] at hrun
                  exact seedTarget_spreads hseeded hstatement hkind ih hsound
                    hrun
        obtain ⟨hsoundAfter, hspreads, hdone⟩ := hloop
        have hseededAfter : after.HasSeeded loader module :=
          hasSeeded_of_statements hdone
        rw [← hmarked] at hspreads
        exact ⟨hsoundAfter, hspreads.of_marked hmodule hseededAfter,
          hspreads.kept module.path List.mem_cons_self⟩

/-- Seeding a fresh state from the entry module meets the effects of all modules
that are to be seeded. -/
theorem includeEffects_does {names : Names} {after : Shaker} {result : Unit}
    (hrun : includeEffects loader entry (.ofNames names) = .ok result after) :
    after.IsSound loader ∧
      (Shaker.ofNames names).Extends loader (EffectNeed loader entry) after ∧
      ∀ need, EffectNeed loader entry need → after.Met need := by
  obtain ⟨hsound, hspreads, hentrySeeded⟩ :=
    seedEffects_spreads hfaithful hentry _ .entry (.ofNames names) hrun
  have hwalked : ∀ module, IsSeeded loader entry module →
      module.path ∈ after.seeded → after.HasSeeded loader module := by
    intro module hseeded hpath
    cases hspreads.seeded module.path hpath with
    | inl hbefore => exact absurd hbefore List.not_mem_nil
    | inr hnew =>
        obtain ⟨found, hfound, _, hdone⟩ := hnew
        rw [hseeded.module_path hfaithful hentry] at hfound
        obtain rfl := Except.ok.inj hfound
        exact hdone
  have hall : ∀ module, IsSeeded loader entry module →
      module.path ∈ after.seeded := by
    intro module hseeded
    induction hseeded with
    | entry => exact hentrySeeded
    | bare hseeded htarget ih => exact (hwalked _ hseeded ih).targets htarget
  refine ⟨hsound, hspreads.progress, ?_⟩
  rintro _ ⟨module, id, hseeded, heffect, rfl⟩
  exact (hwalked module hseeded (hall module hseeded)).effects heffect

end Seeding

end Shaking

end Bundler
