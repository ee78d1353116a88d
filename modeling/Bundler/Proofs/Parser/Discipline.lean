import Bundler.Parser.Basic
import Bundler.Proofs.Outcome

/-!
# Disciplined parsers

All parsers of the grammar handle their token stream in the same few ways: they
look at the next token or consume it, they go back only to a place that they
passed themselves, and they ask for positions only where a token has been
looked at.  What holds of these few ways holds of every parser that is put
together from them, and is proved by induction on how the parser is put
together.

Whether a parser has looked at a token when it succeeds matters where ranges
are taken: the range of a node starts at the first token behind its start, so
that token has to be known.
-/

namespace Bundler

namespace Parser

/-- Runs a parser, and goes back to where it started if the value says so. -/
def rewinding {α β : Type} (parser : Parser β) (back : β → Bool)
    (next : β → Parser α) : Parser α := do
  let start ← checkpoint
  let value ← parser
  if back value then
    restore start
  next value

/-- Parsers that are put together from the ways to handle a stream.  Those that
look have looked at a token behind their start when they succeed. -/
class inductive Disciplined : (looks : Bool) → {α : Type} → Parser α → Prop
  | pure {α : Type} (value : α) : Disciplined false (Pure.pure value)
  | fail {α : Type} {looks : Bool} (error : SyntaxError) :
      Disciplined looks (fail error : Parser α)
  | exhausted {α : Type} {looks : Bool} :
      Disciplined looks (exhausted : Parser α)
  | forward {looks : Bool} (mode : LexMode) (keep : Token → Bool) :
      Disciplined looks (forward mode keep)
  | weaken {α : Type} {parser : Parser α} :
      Disciplined true parser → Disciplined false parser
  | bind {α β : Type} {parser : Parser β} {next : β → Parser α} :
      Disciplined false parser → (∀ value, Disciplined false (next value)) →
      Disciplined false (parser >>= next)
  | bindLooking {α β : Type} {parser : Parser β} {next : β → Parser α} :
      Disciplined true parser → (∀ value, Disciplined false (next value)) →
      Disciplined true (parser >>= next)
  | attempt {α : Type} {parser : Parser α} :
      Disciplined false parser → Disciplined false (attempt parser)
  | rewinding {α β : Type} {looks : Bool} {parser : Parser β}
      {next : β → Parser α} (back : β → Bool) :
      Disciplined looks parser → (∀ value, Disciplined false (next value)) →
      Disciplined looks (rewinding parser back next)
  | position {α : Type} {looks : Bool} {f : Nat → Nat → Parser α} :
      (∀ stop size, Disciplined looks (f stop size)) →
      Disciplined looks (get >>= fun stream => f stream.lastEnd stream.size)
  | withSpan {α : Type} {looks : Bool} {parser : Parser α} :
      Disciplined true parser → Disciplined looks (withSpan parser)

section Composition

variable {α β : Type} {parser : Parser α} {next : α → Parser β}
  {looks : Bool}

theorem Disciplined.any (h : Disciplined true parser) :
    Disciplined looks parser := by
  cases looks with
  | false => exact h.weaken
  | true => exact h

attribute [instance] Disciplined.pure Disciplined.fail Disciplined.exhausted
  Disciplined.forward

instance [h : Disciplined false parser]
    [hnext : ∀ value, Disciplined false (next value)] :
    Disciplined false (parser >>= next) := .bind h hnext

instance [h : Disciplined true parser]
    [hnext : ∀ value, Disciplined false (next value)] :
    Disciplined true (parser >>= next) := .bindLooking h hnext

instance [h : Disciplined false parser] :
    Disciplined false (attempt parser) := .attempt h

instance [h : Disciplined true parser] :
    Disciplined looks (withSpan parser) := .withSpan h

instance {condition : Prop} [Decidable condition] {other : Parser α}
    [h : Disciplined looks parser] [hother : Disciplined looks other] :
    Disciplined looks (if condition then parser else other) := by
  split
  · exact h
  · exact hother

theorem fail_bind (error : SyntaxError) (next : α → Parser β) :
    fail error >>= next = fail error := rfl

instance (error : SyntaxError) (next : α → Parser β) :
    Disciplined looks (fail error >>= next) := by
  rw [fail_bind]
  infer_instance

theorem Disciplined.node {shape : Parser (Shape Node)}
    (h : Disciplined true shape) : Disciplined looks (node shape) :=
  .any (.bindLooking (.withSpan h) fun _ => .pure _)

instance {shape : Parser (Shape Node)} [h : Disciplined true shape] :
    Disciplined looks (node shape) := .node h

end Composition

/-! ### Tokens -/

section Tokens

variable {α : Type} {parser : Parser α} {looks : Bool}

instance (mode : LexMode) : Disciplined looks (consumeIn mode) :=
  .forward mode _

instance : Disciplined looks consume := .forward .standard _

instance (mode : LexMode) : Disciplined looks (peekIn mode) :=
  .forward mode _

instance : Disciplined looks peek := .forward .standard _

instance : Disciplined looks peekKind :=
  .any (by rw [peekKind]; infer_instance)

instance (modes : List LexMode) :
    Disciplined false (modes.mapM consumeIn) := by
  induction modes with
  | nil =>
      rw [List.mapM_nil]
      infer_instance
  | cons mode modes ih =>
      rw [List.mapM_cons]
      infer_instance

theorem peekAhead_eq (modes : List LexMode) :
    peekAhead modes =
      rewinding (modes.mapM consumeIn) (fun _ => true) pure := by
  simp [peekAhead, rewinding]

instance (modes : List LexMode) : Disciplined false (peekAhead modes) := by
  rw [peekAhead_eq]
  exact .rewinding _ inferInstance fun _ => inferInstance

theorem peekTwo_eq :
    peekTwo =
      rewinding (do return (← consume, ← consume)) (fun _ => true) pure := by
  simp [peekTwo, rewinding]

instance : Disciplined looks peekTwo := by
  apply Disciplined.any
  rw [peekTwo_eq]
  exact .rewinding _ inferInstance fun _ => inferInstance

instance (condition : Token → Bool) :
    Disciplined looks (consumeWhen condition) :=
  .any (by rw [consumeWhen]; infer_instance)

instance (kind : TokenKind) : Disciplined looks (accept kind) :=
  .any (by rw [accept]; infer_instance)

instance (mode : LexMode) (kind : TokenKind) :
    Disciplined looks (requireIn mode kind) :=
  .any (by rw [requireIn]; infer_instance)

instance (kind : TokenKind) : Disciplined looks (require kind) := by
  rw [require]
  infer_instance

instance (mark : Punctuator) : Disciplined looks (acceptMark mark) := by
  rw [acceptMark]
  infer_instance

instance (word : Keyword) : Disciplined looks (acceptWord word) := by
  rw [acceptWord]
  infer_instance

instance (mark : Punctuator) : Disciplined looks (requireMark mark) := by
  rw [requireMark]
  infer_instance

instance (word : Keyword) : Disciplined looks (requireWord word) := by
  rw [requireWord]
  infer_instance

instance (mark : Punctuator) [Disciplined false parser] :
    Disciplined looks (afterMark mark parser) :=
  .any (by rw [afterMark]; infer_instance)

instance (word : Keyword) [Disciplined false parser] :
    Disciplined looks (afterWord word parser) :=
  .any (by rw [afterWord]; infer_instance)

end Tokens

/-! ### Repetition -/

section Repetition

variable {α β : Type} {step : β → Parser (β ⊕ α)}

theorem Disciplined.iterateWith (h : ∀ state, Disciplined false (step state))
    (fuel : Nat) (state : β) :
    Disciplined false (iterateWith step fuel state) := by
  induction fuel generalizing state with
  | zero => exact .exhausted
  | succ fuel ih =>
      apply Disciplined.bind (h state)
      intro value
      cases value with
      | inl state => exact ih state
      | inr result => exact .pure result

theorem Disciplined.iterate {state : β}
    (h : ∀ state, Disciplined false (step state)) :
    Disciplined false (iterate step state) :=
  .position
    (f := fun stop size => Parser.iterateWith step (size - stop + 2) state)
    fun stop size => .iterateWith h (size - stop + 2) state

instance [h : ∀ state, Disciplined false (step state)] (state : β) :
    Disciplined false (iterate step state) := .iterate h

instance {item : Parser (Option α)} [Disciplined false item] :
    Disciplined false (collect item) := by
  rw [collect]
  refine .bind (.iterate fun found => .bind inferInstance fun value => ?_)
    fun _ => inferInstance
  cases value with
  | none => infer_instance
  | some value => infer_instance

instance (ends : List TokenKind) {parser : Parser α}
    [Disciplined false parser] :
    Disciplined false (untilKind ends parser) := by
  rw [untilKind]
  infer_instance

instance (close : Punctuator) {item : Parser α} [Disciplined false item] :
    Disciplined false (commaList close item) := by
  rw [commaList]
  infer_instance

end Repetition

/-! ### Runs -/

section Runs

variable {α β : Type} {parser : Parser α} {looks : Bool}
  {stream after : TokenStream}

theorem checkpoint_eq (stream : TokenStream) :
    checkpoint stream = .ok stream.checkpoint stream := rfl

theorem forward_eq (mode : LexMode) (keep : Token → Bool)
    (stream : TokenStream) :
    forward mode keep stream =
      .ok (stream.forward mode keep).1 (stream.forward mode keep).2 := rfl

theorem rewinding_of_ok {back : α → Bool} {next : α → Parser β} {value : α}
    (h : parser stream = .ok value after) :
    rewinding parser back next stream =
      next value
        (if back value then after.restore stream.checkpoint else after) := by
  rw [rewinding, Outcome.bind_of_ok (checkpoint_eq stream),
    Outcome.bind_of_ok h]
  cases back value <;> rfl

theorem rewinding_of_error {back : α → Bool} {next : α → Parser β}
    {failure : ParseFailure} (h : parser stream = .error failure after) :
    rewinding parser back next stream = .error failure after := by
  rw [rewinding, Outcome.bind_of_ok (checkpoint_eq stream),
    Outcome.bind_of_error h]

theorem withSpan_of_ok {value : α} (h : parser stream = .ok value after) :
    withSpan parser stream =
      .ok (after.spanSince stream.checkpoint, value) after := by
  rw [withSpan, Outcome.bind_of_ok (checkpoint_eq stream),
    Outcome.bind_of_ok h]
  rfl

theorem withSpan_of_error {failure : ParseFailure}
    (h : parser stream = .error failure after) :
    withSpan parser stream = .error failure after := by
  rw [withSpan, Outcome.bind_of_ok (checkpoint_eq stream),
    Outcome.bind_of_error h]

/-- The stream that a run leaves, whether or not it succeeds. -/
def leaves (parser : Parser α) (stream : TokenStream) : TokenStream :=
  match parser stream with
  | .ok _ after => after
  | .error _ after => after

theorem leaves_of_ok {value : α} (h : parser stream = .ok value after) :
    leaves parser stream = after := by
  rw [leaves, h]

theorem leaves_of_error {failure : ParseFailure}
    (h : parser stream = .error failure after) :
    leaves parser stream = after := by
  rw [leaves, h]

/-- Disciplined parsers leave a stream that is related to the one they start from,
if looking at a token and consuming it do, and if going back to the start does. -/
theorem Disciplined.relates (Leads : TokenStream → TokenStream → Prop)
    (hrefl : ∀ stream, Leads stream stream)
    (htrans : ∀ {first second third}, Leads first second →
      Leads second third → Leads first third)
    (hforward : ∀ mode keep stream,
      Leads stream (stream.forward mode keep).2)
    (hrestore : ∀ {stream after}, Leads stream after →
      Leads stream (after.restore stream.checkpoint))
    (h : Disciplined looks parser) (stream : TokenStream) :
    Leads stream (leaves parser stream) := by
  have hbind : ∀ {α β : Type} {parser : Parser α} {next : α → Parser β},
      (∀ stream, Leads stream (leaves parser stream)) →
      (∀ value stream, Leads stream (leaves (next value) stream)) →
      ∀ stream, Leads stream (leaves (parser >>= next) stream) := by
    intro α β parser next hfirst hnext stream
    have hleads := hfirst stream
    cases hrun : parser stream with
    | ok value after =>
        rw [leaves_of_ok hrun] at hleads
        rw [leaves, Outcome.bind_of_ok hrun]
        exact htrans hleads (hnext value after)
    | error failure after =>
        rw [leaves_of_error hrun] at hleads
        rw [leaves, Outcome.bind_of_error hrun]
        exact hleads
  induction h generalizing stream with
  | pure value => exact hrefl stream
  | fail error => exact hrefl stream
  | exhausted => exact hrefl stream
  | forward mode keep => exact hforward mode keep stream
  | weaken _ ih => exact ih stream
  | bind _ _ ihFirst ihNext => exact hbind ihFirst ihNext stream
  | bindLooking _ _ ihFirst ihNext => exact hbind ihFirst ihNext stream
  | @attempt α parser _ ih =>
      have hleads := ih stream
      rw [leaves] at hleads ⊢
      rw [Parser.attempt]
      cases hrun : parser stream with
      | ok value after => simpa only [hrun] using hleads
      | error failure after =>
          cases failure <;> simpa only [hrun] using hleads
  | @rewinding α β looks parser next back _ _ ihFirst ihNext =>
      have hleads := ihFirst stream
      cases hrun : parser stream with
      | ok value after =>
          rw [leaves_of_ok hrun] at hleads
          rw [leaves, rewinding_of_ok hrun]
          refine htrans ?_ (ihNext value _)
          split
          · exact hrestore hleads
          · exact hleads
      | error failure after =>
          rw [leaves_of_error hrun] at hleads
          rw [leaves, rewinding_of_error hrun]
          exact hleads
  | @position α looks f _ ih => exact ih stream.lastEnd stream.size stream
  | @withSpan α looks parser _ ih =>
      have hleads := ih stream
      cases hrun : parser stream with
      | ok value after =>
          rw [leaves_of_ok hrun] at hleads
          rw [leaves, withSpan_of_ok hrun]
          exact hleads
      | error failure after =>
          rw [leaves_of_error hrun] at hleads
          rw [leaves, withSpan_of_error hrun]
          exact hleads

/-- What looking at tokens and going back keep is kept by all disciplined
parsers. -/
theorem Disciplined.keeps (Kept : TokenStream → Prop)
    (hforward : ∀ mode keep stream, Kept stream →
      Kept (stream.forward mode keep).2)
    (hrestore : ∀ start stream, Kept stream → Kept (stream.restore start))
    (h : Disciplined looks parser) (hstream : Kept stream) :
    Kept (leaves parser stream) :=
  h.relates (fun stream after => Kept stream → Kept after) (fun _ => id)
    (fun hfirst hsecond hkept => hsecond (hfirst hkept)) hforward
    (fun hleads hkept => hrestore _ _ (hleads hkept)) stream hstream

end Runs

end Parser

end Bundler
