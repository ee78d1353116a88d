import Bundler.Proofs.Shake.Run

/-!
# Interrupted shaking

An operation that fails leaves what it has started in progress.  Whatever becomes
of it, no statement that was met before changes its state; and if it succeeds, all
that it has started is included.
-/

namespace Bundler

namespace Shaker

variable {first second third before read after shaker : Shaker}
  {statement : StatementId}

theorem state?_eq_included_iff :
    shaker.state? statement = some .included ↔
      statement ∈ shaker.included := by
  rw [state?]
  split
  · simp_all
  · split <;> simp_all

theorem state?_eq_inProgress_iff :
    shaker.state? statement = some .inProgress ↔
      statement ∈ shaker.started ∧ statement ∉ shaker.included := by
  rw [state?]
  split
  · simp_all
  · split <;> simp_all

theorem state?_eq_none_iff :
    shaker.state? statement = none ↔
      statement ∉ shaker.started ∧ statement ∉ shaker.included := by
  rw [state?]
  split
  · simp_all
  · split <;> simp_all

/-- The passage from a state to a later one in which no statement that was met
has changed its own. -/
structure Keeps (before after : Shaker) : Prop where
  started : ∀ statement ∈ before.started, statement ∈ after.started
  included : ∀ statement ∈ before.included, statement ∈ after.included
  fresh : ∀ statement ∈ after.included,
    statement ∈ before.included ∨ statement ∉ before.started

/-- All that was started on the way is included in the end. -/
def Finishes (before after : Shaker) : Prop :=
  ∀ statement ∈ after.started,
    statement ∈ before.started ∨ statement ∈ after.included

namespace Keeps

theorem of_eq (hstarted : first.started = second.started)
    (hincluded : first.included = second.included) : Keeps first second where
  started _ hstatement := hstarted ▸ hstatement
  included _ hstatement := hincluded ▸ hstatement
  fresh _ hstatement := .inl (hincluded ▸ hstatement)

theorem refl (shaker : Shaker) : Keeps shaker shaker := of_eq rfl rfl

theorem trans (hfirst : Keeps first second) (hsecond : Keeps second third) :
    Keeps first third where
  started other hother := hsecond.started other (hfirst.started other hother)
  included other hother :=
    hsecond.included other (hfirst.included other hother)
  fresh other hother := by
    cases hsecond.fresh other hother with
    | inl hold => exact hfirst.fresh other hold
    | inr hnew =>
        exact .inr fun hstarted => hnew (hfirst.started other hstarted)

/-- A statement in progress stays so. -/
theorem inProgress (hkeeps : Keeps before after)
    (hstate : before.state? statement = some .inProgress) :
    after.state? statement = some .inProgress := by
  rw [state?_eq_inProgress_iff] at hstate ⊢
  refine ⟨hkeeps.started _ hstate.1, fun hincluded => ?_⟩
  cases hkeeps.fresh _ hincluded with
  | inl hold => exact hstate.2 hold
  | inr hnew => exact hnew hstate.1

/-- A statement in progress was so before, or there was no trace of it. -/
theorem inProgress_cases (hkeeps : Keeps before after)
    (hstate : after.state? statement = some .inProgress) :
    before.state? statement = some .inProgress ∨
      before.state? statement = none := by
  rw [state?_eq_inProgress_iff] at hstate
  rw [state?_eq_inProgress_iff, state?_eq_none_iff]
  have hpending : statement ∉ before.included :=
    fun hold => hstate.2 (hkeeps.included _ hold)
  by_cases hstarted : statement ∈ before.started
  · exact .inl ⟨hstarted, hpending⟩
  · exact .inr ⟨hstarted, hpending⟩

section Statement

variable (hread : Keeps
  { before with started := statement :: before.started } read)
include hread

theorem of_start : Keeps before read where
  started other hother := hread.started other (List.mem_cons_of_mem _ hother)
  included := hread.included
  fresh other hother := (hread.fresh other hother).imp_right
    fun hunstarted hold => hunstarted (List.mem_cons_of_mem _ hold)

theorem finish (hnew : statement ∉ before.started) :
    Keeps before { read with included := read.included ++ [statement] } where
  started := hread.of_start.started
  included other hother :=
    List.mem_append_left _ (hread.included other hother)
  fresh other hother := by
    cases List.mem_append.mp hother with
    | inl hold => exact hread.of_start.fresh other hold
    | inr hlast => exact .inr (List.mem_singleton.mp hlast ▸ hnew)

end Statement

end Keeps

namespace Finishes

theorem of_eq (hstarted : first.started = second.started) :
    Finishes first second :=
  fun _ hstatement => .inl (hstarted ▸ hstatement)

theorem trans (hfirst : Finishes first second)
    (hsecond : Finishes second third) (hkeeps : Keeps second third) :
    Finishes first third := by
  intro other hother
  cases hsecond other hother with
  | inl hbefore =>
      exact (hfirst other hbefore).imp_right (hkeeps.included other)
  | inr hdone => exact .inr hdone

/-- Nothing that an operation starts is left in progress. -/
theorem state?_ne_inProgress (hfinishes : Finishes before after)
    (hstate : before.state? statement = none) :
    after.state? statement ≠ some .inProgress := by
  rw [state?_eq_none_iff] at hstate
  rw [Ne, state?_eq_inProgress_iff]
  rintro ⟨hstarted, hpending⟩
  cases hfinishes _ hstarted with
  | inl hold => exact hstate.1 hold
  | inr hdone => exact hpending hdone

end Finishes

end Shaker

namespace Shaking

variable {α β : Type} {loader : Loader} {module : Module} {path : Path}

/-- An operation that changes no statement which was met before, and leaves none
in progress if it succeeds. -/
def IsTidy (operation : Shaking α) : Prop :=
  ∀ before, match operation before with
    | .ok _ after => before.Keeps after ∧ before.Finishes after
    | .error _ after => before.Keeps after

namespace IsTidy

theorem ok {operation : Shaking α} {before after : Shaker} {value : α}
    (htidy : IsTidy operation) (hrun : operation before = .ok value after) :
    before.Keeps after ∧ before.Finishes after := by
  have hdone := htidy before
  rwa [hrun] at hdone

theorem error {operation : Shaking α} {before after : Shaker}
    {failure : LinkFailure} (htidy : IsTidy operation)
    (hrun : operation before = .error failure after) : before.Keeps after := by
  have hdone := htidy before
  rwa [hrun] at hdone

theorem pure (value : α) : IsTidy (pure value) :=
  fun before => ⟨.refl before, .of_eq rfl⟩

theorem throw (failure : LinkFailure) : IsTidy (throw failure : Shaking α) :=
  fun before => .refl before

theorem get : IsTidy (MonadState.get : Shaking Shaker) :=
  fun before => ⟨.refl before, .of_eq rfl⟩

theorem modify {change : Shaker → Shaker}
    (hstarted : ∀ shaker, shaker.started = (change shaker).started)
    (hincluded : ∀ shaker, shaker.included = (change shaker).included) :
    IsTidy (modify change) :=
  fun before => ⟨.of_eq (hstarted before) (hincluded before),
    .of_eq (hstarted before)⟩

theorem bind {first : Shaking β} {next : β → Shaking α}
    (hfirst : IsTidy first) (hnext : ∀ value, IsTidy (next value)) :
    IsTidy (first >>= next) := by
  intro before
  cases hrun : first before with
  | error failure between =>
      rw [Outcome.bind_of_error hrun]
      exact hfirst.error hrun
  | ok value between =>
      obtain ⟨hkept, hfinished⟩ := hfirst.ok hrun
      rw [Outcome.bind_of_ok hrun]
      cases hlast : next value between with
      | error failure after =>
          exact hkept.trans ((hnext value).error hlast)
      | ok result after =>
          obtain ⟨hkeeps, hfinishes⟩ := (hnext value).ok hlast
          exact ⟨hkept.trans hkeeps, hfinished.trans hfinishes hkeeps⟩

theorem ofExcept_bind {outcome : Except LinkFailure β}
    {next : β → Shaking α}
    (hnext : ∀ value, outcome = .ok value → IsTidy (next value)) :
    IsTidy (ofExcept outcome >>= next) := by
  cases houtcome : outcome with
  | ok value => exact hnext value houtcome
  | error failure => exact throw failure

theorem forM {step : β → Shaking PUnit} {values : List β}
    (hstep : ∀ value ∈ values, IsTidy (step value)) :
    IsTidy (values.forM step) := by
  induction values with
  | nil => exact .pure PUnit.unit
  | cons value values ih =>
      exact (hstep value List.mem_cons_self).bind fun _ =>
        ih fun other hother => hstep other (List.mem_cons_of_mem value hother)

end IsTidy

theorem suggestName_isTidy (module : Module) (name : String) :
    IsTidy (suggestName loader module name) := by
  rw [suggestName]
  cases module.imports.get? name with
  | none => exact .pure ()
  | some imported =>
      dsimp only
      split
      · exact .pure ()
      · cases slot? imported.name with
        | none => exact .pure ()
        | some slot =>
            refine .ofExcept_bind fun target _ => ?_
            cases target with
            | internal dependency =>
                exact .modify (fun _ => rfl) fun _ => rfl
            | external specifier => exact .modify (fun _ => rfl) fun _ => rfl

theorem importBinding_isTidy (module : Module) (name : String) :
    IsTidy (importBinding loader module name) := by
  rw [importBinding]
  refine .bind .get fun shaker => ?_
  cases shaker.binding? module.path name with
  | some binding => exact .pure binding
  | none =>
      refine .ofExcept_bind fun binding _ => ?_
      exact .bind (suggestName_isTidy module name) fun _ =>
        .bind (.modify (fun _ => rfl) fun _ => rfl) fun _ => .pure binding

section Including

variable (hfaithful : loader.IsFaithful) {meet : Need → Shaking Unit}
  (hmeet : ∀ need, Exists loader need → IsTidy (meet need))
include hfaithful hmeet

theorem includeDefinition_isTidy (hmodule : loader.module path = .ok module)
    (name : String) : IsTidy (includeDefinition meet module name) := by
  rw [includeDefinition]
  cases hdefinition : module.definitions.get? name with
  | none => exact .pure ()
  | some id =>
      exact hmeet _ (exists_of_definition hfaithful hmodule hdefinition)

theorem includeBinding_isTidy (binding : Binding) :
    IsTidy (includeBinding loader meet binding) := by
  cases binding with
  | definition path name =>
      exact .ofExcept_bind fun module hmodule =>
        includeDefinition_isTidy hfaithful hmeet hmodule name
  | exportsOf path => exact hmeet _ .exportsOf
  | external specifier name => exact .pure ()

theorem includeName_isTidy (hmodule : loader.module path = .ok module)
    (name : String) : IsTidy (includeName loader meet module name) := by
  rw [includeName]
  split
  · exact .bind (importBinding_isTidy module name)
      fun binding => includeBinding_isTidy hfaithful hmeet binding
  · exact includeDefinition_isTidy hfaithful hmeet hmodule name

theorem includeExports_isTidy (path : Path) :
    IsTidy (includeExports loader meet path) := by
  rw [includeExports]
  refine .bind .get fun shaker => ?_
  split
  · exact .pure ()
  · refine .bind (.modify (fun _ => rfl) fun _ => rfl) fun _ => ?_
    refine .ofExcept_bind fun module _ => .ofExcept_bind fun names _ => ?_
    refine .forM fun name _ => .ofExcept_bind fun binding _ => ?_
    exact .bind (includeBinding_isTidy hfaithful hmeet binding)
      fun _ => .modify (fun _ => rfl) fun _ => rfl

end Including

section Statement

variable {meet : Need → Shaking Unit} {id : Nat} {before : Shaker}

/-- A statement that was met before is left alone. -/
theorem includeStatement_of_started (hstarted : (path, id) ∈ before.started) :
    includeStatement loader meet path id before = .ok () before := by
  rw [includeStatement, Outcome.get_bind, if_pos (by simpa using hstarted)]
  rfl

theorem includeStatement_of_new {statement : Statement}
    (hnew : (path, id) ∉ before.started)
    (hmodule : loader.module path = .ok module)
    (hstatement : module.statements[id]? = some statement) :
    includeStatement loader meet path id before =
      (do
        statement.dependsOn.forM (includeName loader meet module)
        modify fun shaker => { shaker with
          included := shaker.included ++ [(path, id)] }
        statement.defines.forM fun name =>
          ((module.modifications.get? name).getD []).forM fun id =>
            meet (.statement path id) : Shaking Unit)
        { before with started := (path, id) :: before.started } := by
  have hmodify : (modify fun shaker => { shaker with
      started := (path, id) :: shaker.started } : Shaking PUnit) before =
        .ok PUnit.unit
          { before with started := (path, id) :: before.started } := rfl
  rw [includeStatement, Outcome.get_bind, if_neg (by simpa using hnew),
    Outcome.bind_of_ok hmodify, hmodule]
  refine (Outcome.bind_of_ok rfl).trans ?_
  simp only [hstatement]

/-- What is left to do once the statement itself is included. -/
theorem tidy_of_included {rest : Shaking Unit} {read : Shaker}
    {statement : StatementId} (hnew : statement ∉ before.started)
    (hkept : Shaker.Keeps
      { before with started := statement :: before.started } read)
    (hfinished : Shaker.Finishes
      { before with started := statement :: before.started } read)
    (hrest : IsTidy rest) :
    match (do
      modify fun shaker => { shaker with
        included := shaker.included ++ [statement] }
      rest : Shaking Unit) read with
    | .ok _ after => before.Keeps after ∧ before.Finishes after ∧
        statement ∈ after.started
    | .error _ after => before.Keeps after := by
  have hincluded := hkept.finish hnew
  have hmodify : (modify fun shaker => { shaker with
      included := shaker.included ++ [statement] } : Shaking PUnit) read =
        .ok PUnit.unit
          { read with included := read.included ++ [statement] } := rfl
  rw [Outcome.bind_of_ok hmodify]
  cases hrun : rest
      { read with included := read.included ++ [statement] } with
  | error failure after => exact hincluded.trans (hrest.error hrun)
  | ok result after =>
      obtain ⟨hkeeps, hfinishes⟩ := hrest.ok hrun
      refine ⟨hincluded.trans hkeeps, fun other hother => ?_,
        hkeeps.started _ (hkept.started _ List.mem_cons_self)⟩
      cases hfinishes other hother with
      | inr hlater => exact .inr hlater
      | inl hnow =>
          cases hfinished other hnow with
          | inr hread =>
              exact .inr (hkeeps.included _ (List.mem_append_left _ hread))
          | inl hstarted =>
              rcases List.mem_cons.mp hstarted with rfl | hold
              · exact .inr (hkeeps.included _
                  (List.mem_append_right _ List.mem_cons_self))
              · exact .inl hold

/-- A statement is started before what it reads is included, so that a failure
there leaves it in progress.  If all goes well it is included after that. -/
theorem includeStatement_isTidy (hfaithful : loader.IsFaithful)
    (hmeet : ∀ need, Exists loader need → IsTidy (meet need))
    (hmodule : loader.module module.path = .ok module)
    (hid : id < module.statements.length) (before : Shaker) :
    match includeStatement loader meet module.path id before with
    | .ok _ after => before.Keeps after ∧ before.Finishes after ∧
        (module.path, id) ∈ after.started
    | .error _ after => before.Keeps after := by
  by_cases hstarted : (module.path, id) ∈ before.started
  · rw [includeStatement_of_started hstarted]
    exact ⟨.refl before, .of_eq rfl, hstarted⟩
  rw [includeStatement_of_new hstarted hmodule (List.getElem?_eq_getElem hid)]
  generalize module.statements[id] = statement
  have hreads : IsTidy
      (statement.dependsOn.forM (includeName loader meet module)) :=
    .forM fun name _ => includeName_isTidy hfaithful hmeet hmodule name
  have hwrites : IsTidy (statement.defines.forM fun name =>
      ((module.modifications.get? name).getD []).forM fun id =>
        meet (.statement module.path id)) :=
    .forM fun name _ => .forM fun writer hwriter =>
      hmeet _ (exists_of_modification hfaithful hmodule hwriter)
  cases hrunReads : statement.dependsOn.forM (includeName loader meet module)
      { before with started := (module.path, id) :: before.started } with
  | error failure read =>
      rw [Outcome.bind_of_error hrunReads]
      exact (hreads.error hrunReads).of_start
  | ok result read =>
      obtain ⟨hkept, hfinished⟩ := hreads.ok hrunReads
      rw [Outcome.bind_of_ok hrunReads]
      exact tidy_of_included hstarted hkept hfinished hwrites

end Statement

section Requests

variable (hfaithful : loader.IsFaithful)
include hfaithful

theorem meet_isTidy (steps : Nat) (need : Need)
    (hexists : Exists loader need) : IsTidy (meet loader steps need) := by
  induction steps generalizing need with
  | zero => cases need <;> exact .throw _
  | succ steps ih =>
      cases hexists with
      | exportsOf => exact includeExports_isTidy hfaithful ih _
      | @statement module id hmodule hid =>
          intro before
          have htidy := includeStatement_isTidy hfaithful ih hmodule hid before
          rw [meet]
          cases hrun : includeStatement loader (meet loader steps) module.path
              id before with
          | ok result after =>
              rw [hrun] at htidy
              exact ⟨htidy.1, htidy.2.1⟩
          | error failure after =>
              rw [hrun] at htidy
              exact htidy

omit hfaithful in
theorem exists_expand_eq (loader : Loader) (module : Module) (id : Nat) :
    ∃ steps, expand loader module id =
      includeStatement loader (meet loader steps) module.path id :=
  ⟨_, rfl⟩

theorem expand_isTidy (hmodule : loader.module module.path = .ok module)
    {id : Nat} (hid : id < module.statements.length) :
    IsTidy (expand loader module id) :=
  meet_isTidy hfaithful _ _ (.statement hmodule hid)

theorem started_of_expand (hmodule : loader.module module.path = .ok module)
    {id : Nat} (hid : id < module.statements.length) {before after : Shaker}
    {result : Unit} (hrun : expand loader module id before = .ok result after) :
    (module.path, id) ∈ after.started := by
  obtain ⟨steps, hexpand⟩ := exists_expand_eq loader module id
  have htidy := includeStatement_isTidy hfaithful
    (meet_isTidy hfaithful steps) hmodule hid before
  rw [← hexpand, hrun] at htidy
  exact htidy.2.2

theorem seedEffects_isTidy (steps : Nat)
    (hmodule : loader.module module.path = .ok module) :
    IsTidy (seedEffects loader steps module) := by
  induction steps generalizing module with
  | zero => exact .throw _
  | succ steps ih =>
      rw [seedEffects]
      refine .bind .get fun shaker => ?_
      split
      · exact .pure ()
      · refine .bind (.modify (fun _ => rfl) fun _ => rfl) fun _ => .forM ?_
        rintro ⟨id, statement⟩ hnumbered
        have hstatement := Analysis.mem_zip_range_iff.mp hnumbered
        dsimp only
        split
        · exact .pure ()
        · exact .pure ()
        · refine .ofExcept_bind fun target htarget => ?_
          cases target with
          | internal dependency =>
              obtain ⟨path, hfound⟩ := loader.module_of_target htarget
              exact ih (hfaithful.module_path hfound)
          | external specifier => exact .pure ()
        · split
          · exact .pure ()
          · exact expand_isTidy hfaithful hmodule
              (List.getElem?_eq_some_iff.mp hstatement).1

theorem includeExport_isTidy (module : Module) (name : String) :
    IsTidy (includeExport loader module name) := by
  refine .ofExcept_bind fun binding _ => ?_
  have hmeet := meet_isTidy hfaithful (needBound loader)
  exact .bind (includeBinding_isTidy hfaithful hmeet binding)
    fun _ => .pure binding

end Requests

end Shaking

end Bundler
