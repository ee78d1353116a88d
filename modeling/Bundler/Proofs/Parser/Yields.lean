import Bundler.Proofs.Parser.Naming

/-!
# Parsers that yield names where they may stand

What a parser yields is judged by how the parser is put together: a sequence of
parsers yields what fits if its first part does, and if the rest does for every
value that fits.  Names arise where single tokens are read, and only there the
stream matters: the token that is consumed is the one that was looked at.

A parser may give tokens back and read them anew, so a name counts only if its token
is consumed in the end.  The rest of a sequence never gives back what its first part
has consumed, which is why it has to be disciplined for every value.
-/

set_option synthInstance.maxSize 1000

namespace Bundler

namespace Parser

open TokenStream

/-- Parsers that yield values whose names fit, if the tokens that they consume are
consumed in the end. -/
class Yields {α : Type} [HasNames α] (naming : Naming) (parser : Parser α) :
    Prop where
  yields : ∀ {stream value after}, stream.Lexes naming.first →
    parser stream = .ok value after → after.Lexes naming.first ∧
      (Leads naming.first after naming.last → Fit naming value)

section Composition

variable {naming : Naming} {α β : Type} [HasNames α] [HasNames β]
  {parser : Parser α} {next : α → Parser β} {looks : Bool}

instance [Nameless α] [h : Disciplined false parser] :
    Yields naming parser :=
  ⟨fun hstream hrun => ⟨(h.leads hstream hrun).1, fun _ => inferInstance⟩⟩

instance {value : α} [h : Fit naming value] :
    Yields naming (pure value : Parser α) := by
  constructor
  intro stream result after hstream hrun
  obtain ⟨rfl, rfl⟩ := Outcome.pure_eq_ok_iff.mp hrun
  exact ⟨hstream, fun _ => h⟩

instance {error : SyntaxError} : Yields naming (fail error : Parser α) :=
  ⟨fun _ hrun => absurd hrun Outcome.throw_ne_ok⟩

instance : Yields naming (exhausted : Parser α) :=
  ⟨fun _ hrun => absurd hrun Outcome.throw_ne_ok⟩

/-- What the rest of a sequence consumes comes on top of what its first part does, so
both are consumed in the end. -/
theorem Yields.bind (h : Yields naming parser)
    (hrest : ∀ value, Disciplined false (next value))
    (hnext : ∀ value, Fit naming value → Yields naming (next value)) :
    Yields naming (parser >>= next) := by
  constructor
  intro stream result after hstream hrun
  obtain ⟨value, between, hfirst, hsecond⟩ := Outcome.bind_eq_ok_iff.mp hrun
  obtain ⟨hbetween, hvalue⟩ := h.yields hstream hfirst
  obtain ⟨hafter, hleads⟩ := (hrest value).leads hbetween hsecond
  refine ⟨hafter, fun hlast => ?_⟩
  exact ((hnext value (hvalue (hleads.trans hlast))).yields hbetween hsecond).2
    hlast

instance [h : Yields naming parser]
    [hrest : ∀ value, Disciplined false (next value)]
    [hnext : ∀ found : Fitting naming α, Yields naming (next found.value)] :
    Yields naming (parser >>= next) :=
  .bind h hrest fun value hvalue => hnext ⟨value, hvalue⟩

instance {condition : Prop} [Decidable condition] {other : Parser α}
    [h : Yields naming parser] [hother : Yields naming other] :
    Yields naming (if condition then parser else other) := by
  split
  · exact h
  · exact hother

instance {error : SyntaxError} : Yields naming (fail error >>= next) := by
  rw [fail_bind]
  infer_instance

instance [hparser : Disciplined false parser] [h : Yields naming parser] :
    Yields naming (attempt parser) := by
  constructor
  intro stream outcome after hstream hrun
  refine ⟨(hparser.attempt.leads hstream hrun).1, fun hlast => ⟨?_⟩⟩
  rintro value rfl
  rw [attempt] at hrun
  cases hattempt : parser stream with
  | ok found between =>
      rw [hattempt] at hrun
      cases hrun
      exact ((h.yields hstream hattempt).2 hlast).fits
  | error failure between =>
      rw [hattempt] at hrun
      cases failure <;> cases hrun

/-- A value that is gone back from may hold no names, since its tokens are not
consumed. -/
theorem Yields.rewinding {back : α → Bool} (hparser : Disciplined false parser)
    (h : Yields naming parser)
    (hback : ∀ value, back value = true → Fit naming value)
    (hrest : ∀ value, Disciplined false (next value))
    (hnext : ∀ value, Fit naming value → Yields naming (next value)) :
    Yields naming (rewinding parser back next) := by
  constructor
  intro stream result after hstream hrun
  cases hfirst : parser stream with
  | error failure between =>
      rw [rewinding_of_error hfirst] at hrun
      cases hrun
  | ok value between =>
      -- Going back is part of a disciplined parser, so it goes on as well.
      have hstart := ((hparser.rewinding back fun value => .pure value).leads
        hstream (rewinding_of_ok hfirst)).1
      rw [rewinding_of_ok hfirst] at hrun
      obtain ⟨hafter, hleads⟩ := (hrest value).leads hstart hrun
      refine ⟨hafter, fun hlast => ?_⟩
      have hvalue : Fit naming value := by
        cases hgoes : back value with
        | true => exact hback value hgoes
        | false =>
            rw [hgoes, if_neg Bool.false_ne_true] at hleads
            exact (h.yields hstream hfirst).2 (hleads.trans hlast)
      exact ((hnext value hvalue).yields hstart hrun).2 hlast

instance : Yields naming (get : Parser TokenStream) := by
  constructor
  intro stream found after hstream hrun
  obtain ⟨rfl, rfl⟩ := Outcome.get_eq_ok_iff.mp hrun
  exact ⟨hstream, inferInstance⟩

instance : Yields naming checkpoint := by
  rw [checkpoint]
  infer_instance

instance [h : Yields naming parser] : Yields naming (withSpan parser) := by
  constructor
  intro stream result after hstream hrun
  cases hparser : parser stream with
  | error failure between =>
      rw [withSpan_of_error hparser] at hrun
      cases hrun
  | ok value between =>
      rw [withSpan_of_ok hparser] at hrun
      cases hrun
      obtain ⟨hafter, hvalue⟩ := h.yields hstream hparser
      refine ⟨hafter, fun hlast => ?_⟩
      have hvalue := hvalue hlast
      infer_instance

theorem Yields.node {shape : Parser (Shape Node)} (h : Yields naming shape) :
    Yields naming (node shape) := by
  rw [Parser.node]
  infer_instance

instance {shape : Parser (Shape Node)} [h : Yields naming shape] :
    Yields naming (node shape) := .node h

instance {mark : Punctuator} [Disciplined false parser]
    [Yields naming parser] : Yields naming (afterMark mark parser) := by
  rw [afterMark]
  infer_instance

instance {word : Keyword} [Disciplined false parser]
    [Yields naming parser] : Yields naming (afterWord word parser) := by
  rw [afterWord]
  infer_instance

end Composition

/-! ### Repetition -/

section Repetition

variable {naming : Naming} {α β : Type} [HasNames α] [HasNames β]
  {step : β → Parser (β ⊕ α)}

theorem Yields.iterateWith (hstep : ∀ state, Disciplined false (step state))
    (h : ∀ state, Fit naming state → Yields naming (step state)) (fuel : Nat)
    {state : β} (hstate : Fit naming state) :
    Yields naming (iterateWith step fuel state) := by
  induction fuel generalizing state with
  | zero => exact inferInstanceAs (Yields naming exhausted)
  | succ fuel ih =>
      apply Yields.bind (h state hstate)
      · intro value
        cases value with
        | inl state => exact .iterateWith hstep fuel state
        | inr result => exact .pure result
      · intro value hvalue
        cases value with
        | inl state => exact ih ⟨hvalue.fits⟩
        | inr result =>
            have hresult : Fit naming result := ⟨hvalue.fits⟩
            infer_instance

theorem Yields.iterate (hstep : ∀ state, Disciplined false (step state))
    (h : ∀ state, Fit naming state → Yields naming (step state)) {state : β}
    (hstate : Fit naming state) : Yields naming (iterate step state) := by
  rw [Parser.iterate]
  exact .bind inferInstance
    (fun stream => .iterateWith hstep (stream.unread + 2) state)
    fun stream _ => .iterateWith hstep h (stream.unread + 2) hstate

instance [hstep : ∀ state, Disciplined false (step state)]
    [h : ∀ found : Fitting naming β, Yields naming (step found.value)]
    {state : β} [hstate : Fit naming state] :
    Yields naming (iterate step state) :=
  .iterate hstep (fun value hvalue => h ⟨value, hvalue⟩) hstate

instance {item : Parser (Option α)} [hitem : Disciplined false item]
    [h : Yields naming item] : Yields naming (collect item) := by
  rw [collect]
  refine .bind (.iterate (fun found => .bind hitem fun value => ?_)
    (fun found hfound => .bind h (fun value => ?_) fun value hvalue => ?_)
    inferInstance) inferInstance fun values hvalues => inferInstance
  · cases value <;> infer_instance
  · cases value <;> infer_instance
  · cases value with
    | none => infer_instance
    | some value =>
        have hvalue : Fit naming value := ⟨hvalue.fits value rfl⟩
        infer_instance

instance {ends : List TokenKind} {parser : Parser α}
    [Disciplined false parser] [Yields naming parser] :
    Yields naming (untilKind ends parser) := by
  rw [untilKind]
  infer_instance

instance {close : Punctuator} {item : Parser α} [Disciplined false item]
    [Yields naming item] : Yields naming (commaList close item) := by
  rw [commaList]
  infer_instance

end Repetition

end Parser

end Bundler
