import Bundler.Build.Session
import Bundler.Proofs.Outcome
import Mathlib.Logic.Equiv.Basic

/-!
# Other spellings of paths

Different paths may make the same steps, and a module is known by the one it was
first asked for by.  A change of spelling carries everything that is known of
modules over to the other paths.  Operations that do the same before and after
such a change mirror each other.
-/

namespace Bundler

/-- A change of how paths are spelt that keeps the steps they make. -/
structure Respelling where
  spell : Path → Path
  injective : Function.Injective spell
  parts_spell : ∀ path, (spell path).parts = path.parts

namespace Respelling

/-- All paths stay as they are. -/
def id : Respelling := ⟨fun path => path, fun _ _ heq => heq, fun _ => rfl⟩

/-- Two paths that make the same steps change places. -/
def swap (left right : Path) (hsame : left.same right = true) :
    Respelling where
  spell := Equiv.swap left right
  injective := (Equiv.swap left right).injective
  parts_spell path := by
    have hparts : left.parts = right.parts := by simpa [Path.same] using hsame
    rw [Equiv.swap_apply_def]
    split
    · rename_i hleft
      rw [hleft, hparts]
    · split
      · rename_i hright
        rw [hright, hparts]
      · rfl

variable (respelling : Respelling)

@[simp]
theorem spell_inj {left right : Path} :
    respelling.spell left = respelling.spell right ↔ left = right :=
  respelling.injective.eq_iff

@[simp]
theorem same_spell_left (left right : Path) :
    (respelling.spell left).same right = left.same right := by
  rw [Path.same, Path.same, respelling.parts_spell]

@[simp]
theorem same_spell_right (left right : Path) :
    left.same (respelling.spell right) = left.same right := by
  rw [Path.same, Path.same, respelling.parts_spell]

end Respelling

section Data

variable (respelling : Respelling)

def Module.respell (module : Module) : Module :=
  { module with path := respelling.spell module.path }

def Target.respell : Target → Target
  | .internal module => .internal (module.respell respelling)
  | .external specifier => .external specifier

def Binding.respell : Binding → Binding
  | .definition module name => .definition (respelling.spell module) name
  | .exportsOf module => .exportsOf (respelling.spell module)
  | .external specifier name => .external specifier name

def BundleError.respell : BundleError → BundleError
  | .refused path error position =>
      .refused (respelling.spell path) error position
  | .duplicateImport path name position =>
      .duplicateImport (respelling.spell path) name position
  | .illegalReassignment path name position =>
      .illegalReassignment (respelling.spell path) name position
  | .unresolvedExport path name position =>
      .unresolvedExport (respelling.spell path) name position
  | .missingExport path importer name =>
      .missingExport (respelling.spell path) (respelling.spell importer) name
  | .unreadable path reason => .unreadable (respelling.spell path) reason
  | .unsettled path => .unsettled (respelling.spell path)

def LinkFailure.respell : LinkFailure → LinkFailure
  | .unloaded path => .unloaded (respelling.spell path)
  | .refused error => .refused (error.respell respelling)

@[simp]
theorem LinkFailure.isMissingExport_respell (failure : LinkFailure) :
    (failure.respell respelling).isMissingExport = failure.isMissingExport := by
  cases failure with
  | unloaded path => rfl
  | refused error => cases error <;> rfl

end Data

section Outcomes

variable {ε φ α β : Type}

/-- An outcome with its value and its error changed. -/
def Except.change (onError : ε → φ) (onValue : α → β) :
    Except ε α → Except φ β
  | .ok value => .ok (onValue value)
  | .error failure => .error (onError failure)

variable {onError : ε → φ} {onValue : α → β}

/-- Steps that correspond correspond one after the other. -/
theorem Except.bind_change {γ δ : Type} {onNext : γ → δ}
    {first : Except ε α} {image : Except φ β} {next : α → Except ε γ}
    {mirror : β → Except φ δ}
    (hfirst : image = Except.change onError onValue first)
    (hnext : ∀ value, mirror (onValue value) =
      Except.change onError onNext (next value)) :
    image >>= mirror = Except.change onError onNext (first >>= next) := by
  rw [hfirst]
  cases first with
  | ok value => exact hnext value
  | error failure => rfl

theorem Except.mapError_change {ε' φ' : Type} {outcome : Except ε α}
    {left : ε → ε'} {right : ε → φ'} {onError : ε' → φ'}
    (hsame : ∀ failure, right failure = onError (left failure)) :
    outcome.mapError right =
      Except.change onError (fun value => value) (outcome.mapError left) := by
  cases outcome with
  | ok value => rfl
  | error failure => exact congrArg Except.error (hsame failure)

/-- Folds whose steps correspond correspond. -/
theorem Except.foldlM_change {γ : Type} {step : α → γ → Except ε α}
    {mirror : β → γ → Except φ β} {values : List γ}
    (hstep : ∀ value ∈ values, ∀ state, mirror (onValue state) value =
      Except.change onError onValue (step state value)) (start : α) :
    values.foldlM mirror (onValue start) =
      Except.change onError onValue (values.foldlM step start) := by
  induction values generalizing start with
  | nil => rfl
  | cons value values ih =>
      rw [List.foldlM_cons, List.foldlM_cons]
      exact Except.bind_change (hstep value List.mem_cons_self start)
        (ih fun other hother => hstep other (List.mem_cons_of_mem value hother))

/-- Lists of values whose outcomes correspond have outcomes that correspond. -/
theorem Except.mapM_change {γ δ : Type} {onInput : γ → δ}
    {action : γ → Except ε α} {mirror : δ → Except φ β}
    (hmirror : ∀ value, mirror (onInput value) =
      Except.change onError onValue (action value)) (values : List γ) :
    (values.map onInput).mapM mirror =
      Except.change onError (List.map onValue) (values.mapM action) := by
  induction values with
  | nil => rfl
  | cons value values ih =>
      rw [List.map_cons, List.mapM_cons, List.mapM_cons]
      exact Except.bind_change (hmirror value) fun _ =>
        Except.bind_change ih fun _ => rfl

end Outcomes

namespace Outcome

variable {ε σ α β γ δ : Type}

/-- A mirror does to the image of each state what an operation does to the state,
with the images of its errors and values. -/
def Mirrors (onState : σ → σ) (onError : ε → ε) (onValue : α → β)
    (operation : EStateM ε σ α) (mirror : EStateM ε σ β) : Prop :=
  ∀ state, mirror (onState state) =
    match operation state with
    | .ok value after => .ok (onValue value) (onState after)
    | .error failure after => .error (onError failure) (onState after)

namespace Mirrors

variable {onState : σ → σ} {onError : ε → ε} {onValue : α → β}
  {onNext : γ → δ} {operation : EStateM ε σ α} {mirror : EStateM ε σ β}

theorem pure (value : α) :
    Mirrors onState onError onValue (pure value) (pure (onValue value)) :=
  fun _ => rfl

theorem throw (failure : ε) :
    Mirrors onState onError onValue (throw failure)
      (throw (onError failure)) :=
  fun _ => rfl

theorem get : Mirrors onState onError onState
    (MonadState.get : EStateM ε σ σ) MonadState.get :=
  fun _ => rfl

theorem modify {change image : σ → σ}
    (hchange : ∀ state, image (onState state) = onState (change state)) :
    Mirrors onState onError (fun value => value) (modify change)
      (modify image) :=
  fun state => congrArg (EStateM.Result.ok PUnit.unit) (hchange state)

theorem bind {next : α → EStateM ε σ γ} {nextMirror : β → EStateM ε σ δ}
    (hfirst : Mirrors onState onError onValue operation mirror)
    (hnext : ∀ value, Mirrors onState onError onNext (next value)
      (nextMirror (onValue value))) :
    Mirrors onState onError onNext (operation >>= next)
      (mirror >>= nextMirror) := by
  intro state
  have hstep := hfirst state
  cases hrun : operation state with
  | ok value between =>
      rw [hrun] at hstep
      rw [bind_of_ok hrun, bind_of_ok hstep]
      exact hnext value between
  | error failure between =>
      rw [hrun] at hstep
      rw [bind_of_error hrun, bind_of_error hstep]

theorem forM {step mirror : α → EStateM ε σ PUnit} {values : List α}
    (hstep : ∀ value ∈ values,
      Mirrors onState onError (fun value => value) (step value)
        (mirror value)) :
    Mirrors onState onError (fun value => value) (values.forM step)
      (values.forM mirror) := by
  induction values with
  | nil => exact .pure PUnit.unit
  | cons value values ih =>
      exact (hstep value List.mem_cons_self).bind fun _ =>
        ih fun other hother => hstep other (List.mem_cons_of_mem value hother)

theorem mapM {step : γ → EStateM ε σ α} {mirror : γ → EStateM ε σ β}
    {values : List γ}
    (hstep : ∀ value, Mirrors onState onError onValue (step value)
      (mirror value)) :
    Mirrors onState onError (List.map onValue) (values.mapM step)
      (values.mapM mirror) := by
  induction values with
  | nil => exact .pure []
  | cons value values ih =>
      rw [List.mapM_cons, List.mapM_cons]
      exact (hstep value).bind fun _ => ih.bind fun _ => .pure _

end Mirrors

end Outcome

namespace Loader

/-- A loader knows the same modules as another one, though under other paths and
perhaps in another order.  The spelling of paths that are not loaded stays. -/
structure Respells (respelling : Respelling) (loader other : Loader) :
    Prop where
  resolver : other.resolver = loader.resolver
  find : ∀ path, other.find? path = (loader.find? path).map
    (Except.change (BundleError.respell respelling)
      (Module.respell respelling))
  fixed : ∀ path, loader.find? path = none → respelling.spell path = path
  length : other.loaded.length = loader.loaded.length
  modules : other.modules.Perm (loader.modules.map (Module.respell respelling))

end Loader

end Bundler
