import Bundler.Parser.Basic
import Bundler.Proofs.Outcome

/-!
# What parsers ensure of their values

A condition that holds of each value that a parser yields, whatever stream it starts
from.  A sequence ensures what its rest does for every value that its first part may
yield, and a repetition what its steps keep.
-/

namespace Bundler

namespace Parser

/-- A parser yields only values that satisfy a condition. -/
def Ensures {α : Type} (parser : Parser α) (Post : α → Prop) : Prop :=
  ∀ stream value after, parser stream = .ok value after → Post value

namespace Ensures

variable {α β : Type} {Post Others : α → Prop} {Next : β → Prop}
  {parser other : Parser α} {next : α → Parser β}

/-- Any parser at all, of whose values nothing has to be known. -/
theorem any : Ensures parser fun _ => True :=
  fun _ _ _ _ => trivial

theorem mono (h : Ensures parser Post) (hpost : ∀ value, Post value → Others value) :
    Ensures parser Others :=
  fun stream value after hrun => hpost value (h stream value after hrun)

theorem pure {value : α} (h : Post value) : Ensures (pure value) Post := by
  intro stream found after hrun
  obtain ⟨rfl, _⟩ := Outcome.pure_eq_ok_iff.mp hrun
  exact h

theorem fail {error : SyntaxError} : Ensures (fail error) Post :=
  fun _ _ _ hrun => absurd hrun Outcome.throw_ne_ok

theorem exhausted : Ensures exhausted Post :=
  fun _ _ _ hrun => absurd hrun Outcome.throw_ne_ok

theorem bind (h : Ensures parser Post)
    (hnext : ∀ value, Post value → Ensures (next value) Next) :
    Ensures (parser >>= next) Next := by
  intro stream result after hrun
  obtain ⟨value, between, hfirst, hrest⟩ := Outcome.bind_eq_ok_iff.mp hrun
  exact hnext value (h stream value between hfirst) between result after hrest

/-- What a first part yields does not matter. -/
theorem skip (hnext : ∀ value, Ensures (next value) Next) :
    Ensures (parser >>= next) Next :=
  any.bind fun value _ => hnext value

theorem skipPair {γ : Type} {parser : Parser (α × γ)} {next : α × γ → Parser β}
    (hnext : ∀ first second, Ensures (next (first, second)) Next) :
    Ensures (parser >>= next) Next :=
  skip fun pair => hnext pair.1 pair.2

theorem map {f : α → β} (h : Ensures parser Post)
    (hvalue : ∀ value, Post value → Next (f value)) :
    Ensures (parser >>= fun value => Pure.pure (f value)) Next :=
  h.bind fun value hpost => .pure (hvalue value hpost)

theorem ite {condition : Prop} [Decidable condition] (h : Ensures parser Post)
    (hother : Ensures other Post) :
    Ensures (if condition then parser else other) Post := by
  split
  · exact h
  · exact hother

theorem attempt (h : Ensures parser Post) :
    Ensures (attempt parser) fun outcome =>
      ∀ value, outcome = .ok value → Post value := by
  rintro stream outcome after hrun value rfl
  rw [Parser.attempt] at hrun
  cases hparser : parser stream with
  | ok found between =>
      rw [hparser] at hrun
      cases hrun
      exact h stream value after hparser
  | error failure between =>
      rw [hparser] at hrun
      cases failure <;> cases hrun

theorem withSpan (h : Ensures parser Post) :
    Ensures (withSpan parser) fun found => Post found.2 :=
  skip fun _ => h.bind fun _ hvalue => skip fun _ => .pure hvalue

/-- A node is what its shape makes it wherever it stands. -/
theorem anywhere {parser : Parser (Shape Node)} {Post : Node → Prop}
    (h : Ensures parser fun shape => ∀ span, Post (.mk span shape)) :
    Ensures (node parser) Post :=
  h.withSpan.map fun found hfound => hfound found.1

theorem afterMark {mark : Punctuator} (h : Ensures parser Post) :
    Ensures (afterMark mark parser) fun found => ∀ value ∈ found, Post value :=
  skip fun _ => ite (h.map fun _ hvalue => by rintro _ ⟨⟩; exact hvalue)
    (.pure (by simp))

theorem afterWord {word : Keyword} (h : Ensures parser Post) :
    Ensures (afterWord word parser) fun found => ∀ value ∈ found, Post value :=
  skip fun _ => ite (h.map fun _ hvalue => by rintro _ ⟨⟩; exact hvalue)
    (.pure (by simp))

/-! ### Repetition -/

/-- What each step keeps holds up to the last one, which yields the result.  The
induction is on the number of steps that are left. -/
theorem iterate (Kept : β → Prop) (Post : α → Prop) {step : β → Parser (β ⊕ α)}
    {state : β} (hstate : Kept state)
    (hstep : ∀ state, Kept state → Ensures (step state) (Sum.elim Kept Post)) :
    Ensures (iterate step state) Post := by
  refine skip fun stream => ?_
  generalize stream.unread + 2 = fuel
  induction fuel generalizing state with
  | zero => exact exhausted
  | succ fuel ih =>
      refine (hstep state hstate).bind fun value hvalue => ?_
      cases value with
      | inl state => exact ih hvalue
      | inr result => exact .pure hvalue

/-- What is found one by one is in reverse at first. -/
theorem gather {step : List β → Parser (List β ⊕ List β)} {Each : β → Prop}
    (hstep : ∀ found, (∀ value ∈ found, Each value) →
      Ensures (step found) (Sum.elim (fun values => ∀ value ∈ values, Each value)
        fun values => ∀ value ∈ values, Each value)) :
    Ensures (do return (← Parser.iterate step []).reverse)
      fun values => ∀ value ∈ values, Each value :=
  (iterate _ _ (fun _ hmem => absurd hmem List.not_mem_nil) hstep).map
    fun _ hvalues value hmem => hvalues value (List.mem_reverse.mp hmem)

theorem collect {item : Parser (Option α)}
    (h : Ensures item fun found => ∀ value ∈ found, Post value) :
    Ensures (collect item) fun values => ∀ value ∈ values, Post value := by
  refine gather fun found hfound => h.bind fun value hvalue => ?_
  cases value with
  | none => exact .pure hfound
  | some value => exact .pure (List.forall_mem_cons.mpr ⟨hvalue value rfl, hfound⟩)

theorem untilKind {ends : List TokenKind} (h : Ensures parser Post) :
    Ensures (untilKind ends parser) fun values => ∀ value ∈ values, Post value :=
  .collect (skip fun _ => ite (.pure (by simp))
    (h.map fun _ hvalue => by rintro _ ⟨⟩; exact hvalue))

theorem commaList {close : Punctuator} (h : Ensures parser Post) :
    Ensures (commaList close parser) fun values => ∀ value ∈ values, Post value := by
  refine gather fun found hfound => skip fun _ => ite (.pure hfound)
    (h.bind fun value hvalue => ?_)
  have hall := List.forall_mem_cons.mpr ⟨hvalue, hfound⟩
  exact skip fun _ => ite (.pure hall) (skip fun _ => .pure hall)

end Ensures

end Parser

end Bundler
