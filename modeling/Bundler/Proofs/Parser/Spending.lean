import Bundler.Proofs.Parser.Locality
import Bundler.Proofs.Parser.Tallies

/-!
# Parsers that read a word as one name

A parser that starts with some names in hand yields no more names at a place than it
had, and words that it consumes there.  This is judged by how the parser is put
together: what one part yields is in hand for the rest.  A value may hold what is in
hand once, and what it leaves out is lost.
-/

namespace Bundler

open Tallied (tally)

namespace TokenStream

variable {place : Span} {stream later : TokenStream} {count : Nat}

/-- Whether a token is a word that stands at a place. -/
def isWordAt (place : Span) (token : Token) : Bool :=
  token.kind.isWord && token.span = place

/-- How many of the first tokens of a stream are words that stand at a place. -/
def tallyUpTo (place : Span) (stream : TokenStream) (count : Nat) : Nat :=
  (List.range count).countP fun index =>
    stream.buffer[index]?.any (isWordAt place ·.token)

theorem tallyUpTo_succ : stream.tallyUpTo place (count + 1) =
    stream.tallyUpTo place count +
      if stream.buffer[count]?.any (isWordAt place ·.token) then 1 else 0 := by
  rw [tallyUpTo, List.range_succ, List.countP_append, List.countP_singleton]
  rfl

/-- The tokens that are consumed are counted alike later on. -/
theorem Leads.tallyUpTo_eq (h : Leads 0 stream later)
    (hcount : count ≤ stream.consumed) :
    later.tallyUpTo place count = stream.tallyUpTo place count := by
  refine List.countP_congr fun index hindex => ?_
  have hlt := Nat.lt_of_lt_of_le (List.mem_range.mp hindex) hcount
  rw [h.read_eq index (Nat.zero_le _) hlt]

theorem tallyUpTo_mono {fewer : Nat} (hle : fewer ≤ count) :
    stream.tallyUpTo place fewer ≤ stream.tallyUpTo place count :=
  (List.range_sublist.mpr hle).countP_le

end TokenStream

namespace Parser

open TokenStream

/-- A parser that yields no more names at a place than are held when it starts and
words are consumed there. -/
class Spends {α : Type} [Tallied α] (place : Span) (held : Nat)
    (parser : Parser α) : Prop where
  spends : ∀ {stream value after}, stream.Lexes 0 →
    parser stream = .ok value after →
      after.Lexes 0 ∧ Leads 0 stream after ∧
        tally place value + after.tallyUpTo place stream.consumed ≤
          held + after.tallyUpTo place after.consumed

namespace Spends

variable {α β : Type} [Tallied α] [Tallied β] {place : Span}
  {held taken total : Nat} {parser other : Parser α} {next : α → Parser β}

/-! ### Sequences -/

theorem mono (h : Spends place held parser) (hle : held ≤ total) :
    Spends place total parser := by
  constructor
  intro stream value after hstream hrun
  obtain ⟨hafter, hleads, hspends⟩ := h.spends hstream hrun
  exact ⟨hafter, hleads, by omega⟩

theorem pure {value : α} (h : tally place value ≤ held) :
    Spends place held (pure value) := by
  constructor
  intro stream found after hstream hrun
  obtain ⟨rfl, rfl⟩ := Outcome.pure_eq_ok_iff.mp hrun
  exact ⟨hstream, .refl _, Nat.add_le_add_right h _⟩

theorem fail {error : SyntaxError} : Spends place held (fail error : Parser α) :=
  ⟨fun _ hrun => absurd hrun Outcome.throw_ne_ok⟩

theorem exhausted : Spends place held (exhausted : Parser α) :=
  ⟨fun _ hrun => absurd hrun Outcome.throw_ne_ok⟩

/-- What the first part of a sequence takes is not there for the rest, but what it
yields is. -/
theorem bindTaking (h : Spends place taken parser)
    (hnext : ∀ value, Spends place (tally place value + held) (next value))
    (hle : taken + held ≤ total) : Spends place total (parser >>= next) := by
  constructor
  intro stream result after hstream hrun
  obtain ⟨value, between, hfirst, hrest⟩ := Outcome.bind_eq_ok_iff.mp hrun
  obtain ⟨hbetween, hleads, hvalue⟩ := h.spends hstream hfirst
  obtain ⟨hafter, hlater, hresult⟩ := (hnext value).spends hbetween hrest
  refine ⟨hafter, hleads.trans hlater, ?_⟩
  rw [hlater.tallyUpTo_eq (Nat.le_refl _)] at hresult
  rw [hlater.tallyUpTo_eq hleads.consumed_le]
  omega

theorem bind (h : Spends place 0 parser)
    (hnext : ∀ value, Spends place (tally place value + held) (next value)) :
    Spends place held (parser >>= next) :=
  h.bindTaking hnext (Nat.le_of_eq (Nat.zero_add held))

/-- Reading comes with new names in hand. -/
theorem read [h : Spends place 0 parser]
    (hnext : ∀ value, Spends place (tally place value + held) (next value)) :
    Spends place held (parser >>= next) := h.bind hnext

theorem bindPair {γ : Type} [Tallied γ] {parser : Parser (α × γ)}
    {next : α × γ → Parser β} (h : Spends place 0 parser)
    (hnext : ∀ first second,
      Spends place (tally place first + tally place second + held)
        (next (first, second))) :
    Spends place held (parser >>= next) :=
  h.bind fun pair => hnext pair.1 pair.2

theorem readPair {γ : Type} [Tallied γ] {parser : Parser (α × γ)}
    {next : α × γ → Parser β} [h : Spends place 0 parser]
    (hnext : ∀ first second,
      Spends place (tally place first + tally place second + held)
        (next (first, second))) :
    Spends place held (parser >>= next) := h.bindPair hnext

instance [Untallied α] [h : Disciplined false parser] :
    Spends place held parser := by
  constructor
  intro stream value after hstream hrun
  obtain ⟨hafter, hleads⟩ := h.leads hstream hrun
  rw [tally_untallied, Nat.zero_add]
  exact ⟨hafter, hleads,
    Nat.le_add_left_of_le (tallyUpTo_mono hleads.consumed_le)⟩

/-- Values without names need not be kept track of. -/
theorem skip [Untallied α] [Disciplined false parser]
    (hnext : ∀ value, Spends place held (next value)) :
    Spends place held (parser >>= next) :=
  .bind inferInstance fun value =>
    (hnext value).mono (Nat.le_add_left held (tally place value))

theorem skipPair {γ : Type} {parser : Parser (α × γ)} [Tallied γ] [Untallied (α × γ)]
    {next : α × γ → Parser β} [Disciplined false parser]
    (hnext : ∀ first second, Spends place held (next (first, second))) :
    Spends place held (parser >>= next) :=
  skip fun pair => hnext pair.1 pair.2

theorem ite {condition : Prop} [Decidable condition] (h : Spends place held parser)
    (hother : Spends place held other) :
    Spends place held (if condition then parser else other) := by
  split
  · exact h
  · exact hother

theorem map {f : α → β} [h : Spends place 0 parser]
    (hvalue : ∀ value, tally place (f value) ≤ tally place value + held) :
    Spends place held (parser >>= fun value => Pure.pure (f value)) :=
  .bind h fun value => .pure (hvalue value)

/-- A parser that takes all that is in hand may pass it on. -/
theorem passing {f : α → β} (h : Spends place held parser)
    (hvalue : ∀ value, tally place (f value) ≤ tally place value) :
    Spends place held (parser >>= fun value => Pure.pure (f value)) :=
  h.bindTaking (fun value => .pure (hvalue value)) (Nat.le_of_eq (Nat.add_zero held))

instance [hparser : Disciplined false parser] [h : Spends place held parser] :
    Spends place held (attempt parser) := by
  constructor
  intro stream outcome after hstream hrun
  obtain ⟨hafter, hleads⟩ := hparser.attempt.leads hstream hrun
  refine ⟨hafter, hleads, ?_⟩
  rw [attempt] at hrun
  cases hparser : parser stream with
  | ok value between =>
      rw [hparser] at hrun
      cases hrun
      exact (h.spends hstream hparser).2.2
  | error failure between =>
      rw [hparser] at hrun
      cases failure <;> cases hrun
      rw [tally_error, Nat.zero_add]
      exact Nat.le_add_left_of_le (tallyUpTo_mono hleads.consumed_le)

/-- A value that is gone back from may hold no names, since its tokens are not
consumed. -/
theorem rewinding {back : α → Bool} [hparser : Disciplined false parser]
    [h : Spends place 0 parser]
    (hback : ∀ value, back value = true → tally place value = 0)
    (hnext : ∀ value, Spends place (tally place value + held) (next value)) :
    Spends place held (rewinding parser back next) := by
  constructor
  intro stream result after hstream hrun
  cases hfirst : parser stream with
  | error failure between =>
      rw [rewinding_of_error hfirst] at hrun
      cases hrun
  | ok value between =>
      -- Going back is part of a disciplined parser, so it goes on as well.
      have hstart := (hparser.rewinding back fun value => .pure value).leads
        hstream (rewinding_of_ok hfirst)
      rw [rewinding_of_ok hfirst] at hrun
      cases hgoes : back value with
      | true =>
          rw [hgoes, if_pos rfl] at hstart hrun
          obtain ⟨hafter, hlater, hresult⟩ := (hnext value).spends hstart.1 hrun
          rw [hback value hgoes, Nat.zero_add] at hresult
          exact ⟨hafter, hstart.2.trans hlater, hresult⟩
      | false =>
          rw [hgoes, if_neg Bool.false_ne_true] at hrun
          obtain ⟨hbetween, hleads, hvalue⟩ := h.spends hstream hfirst
          obtain ⟨hafter, hlater, hresult⟩ := (hnext value).spends hbetween hrun
          refine ⟨hafter, hleads.trans hlater, ?_⟩
          rw [hlater.tallyUpTo_eq (Nat.le_refl _)] at hresult
          rw [hlater.tallyUpTo_eq hleads.consumed_le]
          omega

instance [h : Spends place held parser] : Spends place held (withSpan parser) := by
  constructor
  intro stream found after hstream hrun
  cases hparser : parser stream with
  | error failure between =>
      rw [withSpan_of_error hparser] at hrun
      cases hrun
  | ok value between =>
      rw [withSpan_of_ok hparser] at hrun
      cases hrun
      rw [tally_pair, tally_untallied, Nat.zero_add]
      exact h.spends hstream hparser

theorem node {shape : Parser (Shape Node)} (h : Spends place held shape) :
    Spends place held (node shape) := by
  constructor
  intro stream result after hstream hrun
  rw [Parser.node] at hrun
  obtain ⟨⟨span, found⟩, between, hshape, hrun⟩ := Outcome.bind_eq_ok_iff.mp hrun
  obtain ⟨rfl, rfl⟩ := Outcome.pure_eq_ok_iff.mp hrun
  have hspan : Spends place held (withSpan shape) := inferInstance
  obtain ⟨hafter, hleads, hspends⟩ := hspan.spends hstream hshape
  rw [tally_pair, tally_untallied, Nat.zero_add] at hspends
  exact ⟨hafter, hleads,
    Nat.le_trans (Nat.add_le_add_right (tally_node_le span found) _) hspends⟩

instance {mark : Punctuator} [Disciplined false parser] [Spends place 0 parser] :
    Spends place 0 (afterMark mark parser) := by
  rw [afterMark]
  exact .skip fun _ => .ite (.map fun _ => Nat.le_refl _) (.pure (Nat.le_refl 0))

instance {word : Keyword} [Disciplined false parser] [Spends place 0 parser] :
    Spends place 0 (afterWord word parser) := by
  rw [afterWord]
  exact .skip fun _ => .ite (.map fun _ => Nat.le_refl _) (.pure (Nat.le_refl 0))

/-! ### Repetition -/

instance : Spends place 0 (get : Parser TokenStream) := by
  constructor
  intro stream found after hstream hrun
  obtain ⟨rfl, rfl⟩ := Outcome.get_eq_ok_iff.mp hrun
  exact ⟨hstream, .refl _, Nat.le_refl _⟩

/-- A step that only takes what its state holds may be repeated.  The induction is on
the number of steps that are left. -/
theorem iterate {step : β → Parser (β ⊕ α)}
    (hstep : ∀ state, Spends place (tally place state) (step state)) (state : β) :
    Spends place (tally place state) (iterate step state) := by
  rw [Parser.iterate]
  refine .read fun stream => .mono ?_ (Nat.le_add_left _ _)
  generalize stream.unread + 2 = fuel
  induction fuel generalizing state with
  | zero => exact .exhausted
  | succ fuel ih =>
      refine (hstep state).bindTaking (fun value => ?_) (Nat.le_of_eq (Nat.add_zero _))
      cases value with
      | inl state => exact ih state
      | inr result => exact .pure (Nat.le_refl _)

/-- Nothing is in hand before the first step. -/
theorem iterateNil {step : List β → Parser (List β ⊕ α)}
    (hstep : ∀ found, Spends place (tally place found) (step found)) :
    Spends place 0 (Parser.iterate step []) := iterate hstep []

/-- What is found one by one is in reverse at first. -/
theorem gather {step : List β → Parser (List β ⊕ List β)}
    (hstep : ∀ found, Spends place (tally place found) (step found)) :
    Spends place 0 (do return (← Parser.iterate step []).reverse) :=
  .bind (.iterateNil hstep) fun values => .pure (Nat.le_of_eq (tally_reverse values))

instance {item : Parser (Option α)} [Spends place 0 item] :
    Spends place 0 (collect item) := by
  rw [collect]
  refine .gather fun found => .read fun value => ?_
  cases value with
  | none => exact .pure (Nat.le_of_eq (Nat.zero_add _).symm)
  | some value => exact .pure (Nat.le_refl _)

instance {ends : List TokenKind} [Spends place 0 parser] :
    Spends place 0 (untilKind ends parser) := by
  have hitem : Spends place 0 (do
      if ends.contains (← peekKind) then return none
      else return some (← parser)) :=
    .skip fun _ => .ite (.pure (Nat.le_refl 0)) (.map fun _ => Nat.le_refl _)
  rw [untilKind]
  infer_instance

instance {close : Punctuator} [Spends place 0 parser] :
    Spends place 0 (commaList close parser) := by
  rw [commaList]
  refine .gather fun found => .skip fun _ => .ite (.pure (Nat.le_refl _))
    (.read fun value => .skip fun _ => .ite (.pure (Nat.le_refl _))
      (.skip fun _ => .pure (Nat.le_refl _)))

end Spends

end Parser

end Bundler
