import Bundler.Proofs.Parser.Progress

/-!
# Parsers that settle

The parsers of a grammar call each other, and loops call their steps, a bounded
number of times.  Here it is shown that the bounds are not noticed.  A parser
settles within some room if, on a stream with fewer unread bytes than that, it
does the same whatever further depth the grammar has, and does not run out of
steps.  A rule that takes up text before it calls others needs room for one byte
more than they do, and a step of a loop that goes on takes up text as well.

A failure is then an error of the source, and only a text with an arrow in it
is refused for a line break in front of one.
-/

set_option synthInstance.maxSize 4000

namespace Bundler

open TokenStream

/-- Somewhere in a text an arrow is found. -/
def HasArrow (text : List Char) : Prop :=
  ∃ (mode : LexMode) (cursor : Cursor), cursor.IsIn text ∧
    (lexToken mode cursor).token.kind = .punctuator .equalsChevronRight

/-- A failure is an error of the source, and if it is about an arrow, there is
one. -/
def ParseFailure.IsFounded (text : List Char) : ParseFailure → Prop
  | .refused error => error.fault = .lineBreakBeforeArrow → HasArrow text
  | .exhausted => False

/-- A fault that is not about an arrow. -/
class SyntaxFault.IsPlain (fault : SyntaxFault) : Prop where
  ne : fault ≠ .lineBreakBeforeArrow

namespace SyntaxFault

instance {what : String} : (SyntaxFault.expected what).IsPlain := ⟨nofun⟩

instance : SyntaxFault.invalidEscape.IsPlain := ⟨nofun⟩

instance : SyntaxFault.lineBreakAfterThrow.IsPlain := ⟨nofun⟩

instance : SyntaxFault.lineBreakInString.IsPlain := ⟨nofun⟩

instance : SyntaxFault.malformedBigint.IsPlain := ⟨nofun⟩

instance : SyntaxFault.malformedNumber.IsPlain := ⟨nofun⟩

instance {kind : TokenKind} : (SyntaxFault.missingToken kind).IsPlain :=
  ⟨nofun⟩

instance : SyntaxFault.tryWithoutHandler.IsPlain := ⟨nofun⟩

instance : SyntaxFault.unexpectedEnd.IsPlain := ⟨nofun⟩

end SyntaxFault

namespace Parser

variable {α β : Type} {room : Nat} {parser parser' : Parser α}
  {next next' : α → Parser β} {looks : Bool} {text : List Char}
  {stream after : TokenStream}

/-- Two parsers, one of which may be deeper than the other, do the same on
streams with fewer unread bytes than `room`, and fail only with reason. -/
class Settles {α : Type} (text : List Char) (room : Nat)
    (parser parser' : Parser α) : Prop where
  agrees : ∀ {stream}, stream.Reads text → stream.unread < room →
    parser stream = parser' stream
  founded : ∀ {stream failure after}, stream.Reads text →
    stream.unread < room → parser stream = .error failure after →
    failure.IsFounded text

theorem Settles.mono {less : Nat} (h : Settles text room parser parser')
    (hle : less ≤ room) : Settles text less parser parser' :=
  ⟨fun hstream hroom => h.agrees hstream (Nat.lt_of_lt_of_le hroom hle),
    fun hstream hroom => h.founded hstream (Nat.lt_of_lt_of_le hroom hle)⟩

/-- Without room nothing has to be shown. -/
theorem settles_zero : Settles text 0 parser parser' :=
  ⟨fun _ hroom => absurd hroom (Nat.not_lt_zero _),
    fun _ hroom => absurd hroom (Nat.not_lt_zero _)⟩

section Composition

/-- The end of a source is not behind its last token. -/
theorem lastEnd_le_size (hstream : stream.Reads text) :
    stream.lastEnd ≤ stream.size := by
  rw [hstream.size_eq]
  exact hstream.isBoundary_lastEnd.le

theorem Disciplined.unread_le (h : Disciplined looks parser)
    (hstream : stream.Reads text) {value : α}
    (hrun : parser stream = .ok value after) :
    after.unread ≤ stream.unread := by
  have hle := h.lastEnd_le hstream hrun
  have hsize := (h.reads hstream hrun).size_eq.trans hstream.size_eq.symm
  rw [TokenStream.unread, TokenStream.unread, hsize]
  omega

theorem GoesOn.unread_lt (h : GoesOn stream after)
    (hstream : stream.Reads text) (hafter : after.Reads text) :
    after.unread < stream.unread := by
  have hlt := h.lastEnd_lt hstream
  have hsize := hafter.size_eq.trans hstream.size_eq.symm
  have hle := lastEnd_le_size hafter
  rw [TokenStream.unread, TokenStream.unread, hsize]
  omega

theorem Advances.unread_lt (hparser : Advances parser)
    (h : Disciplined looks parser) (hstream : stream.Reads text) {value : α}
    (hrun : parser stream = .ok value after) :
    after.unread < stream.unread :=
  (hparser.goesOn hrun).unread_lt hstream (h.reads hstream hrun)

instance {value : α} : Settles text room (pure value) (pure value : Parser α) :=
  ⟨fun _ _ => rfl, fun _ _ hrun => by cases hrun⟩

theorem settles_fail {error : SyntaxError}
    (h : (ParseFailure.refused error).IsFounded text) :
    Settles text room (fail error) (fail error : Parser α) := by
  refine ⟨fun _ _ => rfl, fun _ _ hrun => ?_⟩
  cases hrun
  exact h

instance {fault : SyntaxFault} {span : Span} {found : Option TokenKind}
    [h : fault.IsPlain] :
    Settles text room (fail ⟨fault, span, found⟩)
      (fail ⟨fault, span, found⟩ : Parser α) :=
  settles_fail fun hfault => absurd hfault h.ne

instance {fault : SyntaxFault} {token : Token} [fault.IsPlain] :
    Settles text room (fail (token.error fault))
      (fail (token.error fault) : Parser α) := by
  rw [Token.error]
  infer_instance

instance {fault : SyntaxFault} {span : Span} [fault.IsPlain] :
    Settles text room (fail (span.error fault))
      (fail (span.error fault) : Parser α) := by
  rw [Span.error]
  infer_instance

/-- What follows has to settle for the values that the first part yields and
the streams that it leaves. -/
theorem Settles.bind_of {rest : Nat} (h : Settles text room parser parser')
    (hreads : ∀ {stream value after}, stream.Reads text →
      stream.unread < room → parser stream = .ok value after →
      after.Reads text ∧ after.unread < rest)
    (hnext : ∀ {stream value after}, stream.Reads text →
      parser stream = .ok value after →
      Settles text rest (next value) (next' value)) :
    Settles text room (parser >>= next) (parser' >>= next') := by
  constructor
  · intro stream hstream hroom
    have hagrees := h.agrees hstream hroom
    cases hrun : parser stream with
    | error failure between =>
        rw [Outcome.bind_of_error hrun, Outcome.bind_of_error
          (hagrees.symm.trans hrun)]
    | ok value between =>
        obtain ⟨hbetween, hrest⟩ := hreads hstream hroom hrun
        rw [Outcome.bind_of_ok hrun, Outcome.bind_of_ok
          (hagrees.symm.trans hrun),
          (hnext hstream hrun).agrees hbetween hrest]
  · intro stream failure after hstream hroom hrun
    rcases Outcome.bind_eq_error_iff.mp hrun with
      hfirst | ⟨value, between, hfirst, hsecond⟩
    · exact h.founded hstream hroom hfirst
    · obtain ⟨hbetween, hrest⟩ := hreads hstream hroom hfirst
      exact (hnext hstream hfirst).founded hbetween hrest hsecond

theorem Settles.bind (hdisciplined : Disciplined false parser)
    (h : Settles text room parser parser')
    (hnext : ∀ value, Settles text room (next value) (next' value)) :
    Settles text room (parser >>= next) (parser' >>= next') :=
  h.bind_of (fun hstream hroom hrun =>
    ⟨hdisciplined.reads hstream hrun,
      Nat.lt_of_le_of_lt (hdisciplined.unread_le hstream hrun) hroom⟩)
    fun _ _ => hnext _

/-- Behind what takes up text there is less to read. -/
theorem Settles.bindAdvancing_of (h : Settles text (room + 1) parser parser')
    (hdisciplined : Disciplined false parser) (hadvances : Advances parser)
    (hnext : ∀ {stream value after}, stream.Reads text →
      parser stream = .ok value after →
      Settles text room (next value) (next' value)) :
    Settles text (room + 1) (parser >>= next) (parser' >>= next') :=
  h.bind_of (fun hstream hroom hrun =>
    ⟨hdisciplined.reads hstream hrun,
      Nat.lt_of_lt_of_le (hadvances.unread_lt hdisciplined hstream hrun)
        (Nat.le_of_lt_succ hroom)⟩) hnext

theorem Settles.bindAdvancing (hdisciplined : Disciplined false parser)
    (hadvances : Advances parser) (h : Settles text (room + 1) parser parser')
    (hnext : ∀ value, Settles text room (next value) (next' value)) :
    Settles text (room + 1) (parser >>= next) (parser' >>= next') :=
  h.bindAdvancing_of hdisciplined hadvances fun _ _ => hnext _

instance [hdisciplined : Disciplined false parser]
    [h : Settles text room parser parser']
    [hnext : ∀ value, Settles text room (next value) (next' value)] :
    Settles text room (parser >>= next) (parser' >>= next') :=
  .bind hdisciplined h hnext

instance [hdisciplined : Disciplined false parser]
    [hadvances : Advances parser] [h : Settles text (room + 1) parser parser']
    [hnext : ∀ value, Settles text room (next value) (next' value)] :
    Settles text (room + 1) (parser >>= next) (parser' >>= next') :=
  .bindAdvancing hdisciplined hadvances h hnext

instance {next next' : TokenStream → Parser α}
    [h : ∀ stream, Settles text room (next stream) (next' stream)] :
    Settles text room (get >>= next) (get >>= next') :=
  ⟨fun hstream hroom => (h _).agrees hstream hroom,
    fun hstream hroom hrun => (h _).founded hstream hroom hrun⟩

instance {error : SyntaxError} {next next' : α → Parser β}
    [h : Settles text room (fail error) (fail error : Parser β)] :
    Settles text room (fail error >>= next) (fail error >>= next') := by
  rw [fail_bind, fail_bind]
  exact h

instance {condition : Prop} [Decidable condition] {other other' : Parser α}
    [h : Settles text room parser parser']
    [hother : Settles text room other other'] :
    Settles text room (if condition then parser else other)
      (if condition then parser' else other') := by
  split
  · exact h
  · exact hother

theorem Settles.withSpan (h : Settles text room parser parser') :
    Settles text room (withSpan parser) (withSpan parser') := by
  constructor
  · intro stream hstream hroom
    have hagrees := h.agrees hstream hroom
    cases hrun : parser stream with
    | error failure after =>
        rw [withSpan_of_error hrun, withSpan_of_error
          (hagrees.symm.trans hrun)]
    | ok value after =>
        rw [withSpan_of_ok hrun, withSpan_of_ok (hagrees.symm.trans hrun)]
  · intro stream failure after hstream hroom hrun
    cases hparser : parser stream with
    | error found between =>
        rw [withSpan_of_error hparser] at hrun
        cases hrun
        exact h.founded hstream hroom hparser
    | ok value between =>
        rw [withSpan_of_ok hparser] at hrun
        cases hrun

instance [h : Settles text room parser parser'] :
    Settles text room (withSpan parser) (withSpan parser') := h.withSpan

theorem Settles.node {shape shape' : Parser (Shape Node)}
    (h : Settles text room shape shape') :
    Settles text room (node shape) (node shape') := by
  -- A shape need not look at a token for its node to settle.
  constructor
  · intro stream hstream hroom
    have hagrees := h.withSpan.agrees hstream hroom
    cases hrun : Parser.withSpan shape stream with
    | error failure after =>
        rw [Parser.node, Parser.node, Outcome.bind_of_error hrun,
          Outcome.bind_of_error (hagrees.symm.trans hrun)]
    | ok value after =>
        rw [Parser.node, Parser.node, Outcome.bind_of_ok hrun,
          Outcome.bind_of_ok (hagrees.symm.trans hrun)]
  · intro stream failure after hstream hroom hrun
    rcases Outcome.bind_eq_error_iff.mp hrun with
      hfirst | ⟨value, between, _, hsecond⟩
    · exact h.withSpan.founded hstream hroom hfirst
    · cases hsecond

instance {shape shape' : Parser (Shape Node)}
    [h : Settles text room shape shape'] :
    Settles text room (node shape) (node shape') := h.node

/-- A syntax error is handed over, and bounds are not reached. -/
theorem Settles.attempt (h : Settles text room parser parser') :
    Settles text room (attempt parser) (attempt parser') := by
  constructor
  · intro stream hstream hroom
    rw [Parser.attempt, Parser.attempt, h.agrees hstream hroom]
  · intro stream failure after hstream hroom hrun
    rw [Parser.attempt] at hrun
    cases hparser : parser stream with
    | ok value between =>
        rw [hparser] at hrun
        cases hrun
    | error found between =>
        have hfounded := h.founded hstream hroom hparser
        rw [hparser] at hrun
        cases found with
        | refused error => cases hrun
        | exhausted => exact hfounded.elim

instance [h : Settles text room parser parser'] :
    Settles text room (attempt parser) (attempt parser') := h.attempt

/-- What is read after going back may depend on what was read before it. -/
theorem Settles.rewinding {back : α → Bool}
    (hdisciplined : Disciplined false parser)
    (h : Settles text room parser parser')
    (hnext : ∀ {stream value after}, stream.Reads text →
      stream.unread < room → parser stream = .ok value after →
      ∀ {between : TokenStream}, between.Reads text →
        between.unread < room →
        next value between = next' value between ∧
        ∀ {failure last}, next value between = .error failure last →
          failure.IsFounded text) :
    Settles text room (rewinding parser back next)
      (rewinding parser' back next') := by
  have hbetween : ∀ {stream value after}, stream.Reads text →
      stream.unread < room → parser stream = .ok value after →
      (if back value then after.restore stream.checkpoint else after).Reads
        text ∧ (if back value then after.restore stream.checkpoint
          else after).unread < room := by
    intro stream value after hstream hroom hrun
    split
    · have hreads := hdisciplined.reads_restore hstream hrun
      refine ⟨hreads, ?_⟩
      rw [TokenStream.unread, lastEnd_restore
        (hdisciplined.leads hstream.lexes hrun).2, hreads.size_eq,
        ← hstream.size_eq]
      exact hroom
    · exact ⟨hdisciplined.reads hstream hrun,
        Nat.lt_of_le_of_lt (hdisciplined.unread_le hstream hrun) hroom⟩
  constructor
  · intro stream hstream hroom
    have hagrees := h.agrees hstream hroom
    cases hrun : parser stream with
    | error failure after =>
        rw [rewinding_of_error hrun, rewinding_of_error
          (hagrees.symm.trans hrun)]
    | ok value after =>
        obtain ⟨hreads, hless⟩ := hbetween hstream hroom hrun
        rw [rewinding_of_ok hrun, rewinding_of_ok (hagrees.symm.trans hrun)]
        exact (hnext hstream hroom hrun hreads hless).1
  · intro stream failure after hstream hroom hrun
    cases hparser : parser stream with
    | error found between =>
        rw [rewinding_of_error hparser] at hrun
        cases hrun
        exact h.founded hstream hroom hparser
    | ok value between =>
        obtain ⟨hreads, hless⟩ := hbetween hstream hroom hparser
        rw [rewinding_of_ok hparser] at hrun
        exact (hnext hstream hroom hparser hreads hless).2 hrun

instance {back : α → Bool} [hdisciplined : Disciplined false parser]
    [h : Settles text room parser parser']
    [hnext : ∀ value, Settles text room (next value) (next' value)] :
    Settles text room (rewinding parser back next)
      (rewinding parser' back next') :=
  .rewinding hdisciplined h fun {_ value _} _ _ _ _ hreads hless =>
    ⟨(hnext value).agrees hreads hless, (hnext value).founded hreads hless⟩

end Composition

/-! ### Tokens -/

section Tokens

instance {mode : LexMode} {keep : Token → Bool} :
    Settles text room (forward mode keep) (forward mode keep) :=
  ⟨fun _ _ => rfl, fun _ _ hrun => by rw [forward_eq] at hrun; cases hrun⟩

instance {mode : LexMode} :
    Settles text room (consumeIn mode) (consumeIn mode) := by
  rw [consumeIn]
  infer_instance

instance : Settles text room consume consume := by
  rw [consume]
  infer_instance

instance {mode : LexMode} : Settles text room (peekIn mode) (peekIn mode) := by
  rw [peekIn]
  infer_instance

instance : Settles text room peek peek := by
  rw [peek]
  infer_instance

instance : Settles text room peekKind peekKind := by
  rw [peekKind]
  infer_instance

instance {modes : List LexMode} :
    Settles text room (modes.mapM consumeIn) (modes.mapM consumeIn) := by
  induction modes with
  | nil =>
      rw [List.mapM_nil]
      infer_instance
  | cons mode modes ih =>
      rw [List.mapM_cons]
      infer_instance

instance {modes : List LexMode} :
    Settles text room (peekAhead modes) (peekAhead modes) := by
  rw [peekAhead_eq]
  infer_instance

instance : Settles text room peekTwo peekTwo := by
  rw [peekTwo_eq]
  infer_instance

instance {condition : Token → Bool} :
    Settles text room (consumeWhen condition) (consumeWhen condition) := by
  rw [consumeWhen]
  infer_instance

instance {kind : TokenKind} : Settles text room (accept kind) (accept kind) := by
  rw [accept]
  infer_instance

instance {mode : LexMode} {kind : TokenKind} :
    Settles text room (requireIn mode kind) (requireIn mode kind) := by
  rw [requireIn]
  infer_instance

instance {kind : TokenKind} :
    Settles text room (require kind) (require kind) := by
  rw [require]
  infer_instance

instance {mark : Punctuator} :
    Settles text room (acceptMark mark) (acceptMark mark) := by
  rw [acceptMark]
  infer_instance

instance {word : Keyword} :
    Settles text room (acceptWord word) (acceptWord word) := by
  rw [acceptWord]
  infer_instance

instance {mark : Punctuator} :
    Settles text room (requireMark mark) (requireMark mark) := by
  rw [requireMark]
  infer_instance

instance {word : Keyword} :
    Settles text room (requireWord word) (requireWord word) := by
  rw [requireWord]
  infer_instance

instance {mark : Punctuator} [Disciplined false parser]
    [Settles text room parser parser'] :
    Settles text room (afterMark mark parser) (afterMark mark parser') := by
  rw [afterMark, afterMark]
  infer_instance

instance {word : Keyword} [Disciplined false parser]
    [Settles text room parser parser'] :
    Settles text room (afterWord word parser) (afterWord word parser') := by
  rw [afterWord, afterWord]
  infer_instance

end Tokens

/-! ### Going on -/

section GoingOn

variable {goes : α → Bool} {more : β → Bool}

theorem goesOnIf_pure {value : α} (h : goes value = false) :
    GoesOnIf goes (pure value) := by
  constructor
  intro stream found after hrun hgoes
  obtain ⟨rfl, rfl⟩ := Outcome.pure_eq_ok_iff.mp hrun
  rw [h] at hgoes
  cases hgoes

instance {result : β} :
    GoesOnIf Sum.isLeft (pure (.inr result) : Parser (α ⊕ β)) :=
  goesOnIf_pure rfl

instance : GoesOnIf Option.isSome (pure none : Parser (Option α)) :=
  goesOnIf_pure rfl

instance [hdisciplined : Disciplined false parser]
    [hnext : ∀ value, GoesOnIf more (next value)] :
    GoesOnIf more (parser >>= next) := by
  constructor
  intro stream result after hrun hmore
  obtain ⟨value, between, hfirst, hsecond⟩ := Outcome.bind_eq_ok_iff.mp hrun
  exact hdisciplined.goesOn_later hfirst ((hnext value).goesOn hsecond hmore)

instance {condition : Prop} [Decidable condition] {other : Parser α}
    [h : GoesOnIf goes parser] [hother : GoesOnIf goes other] :
    GoesOnIf goes (if condition then parser else other) := by
  split
  · exact h
  · exact hother

instance (priority := high) [Decidable (false = true)] {other : Parser α}
    [hother : GoesOnIf goes other] :
    GoesOnIf goes (if false = true then parser else other) := by
  rw [if_neg Bool.false_ne_true]
  exact hother

/-- Behind a token that takes up text there is less to read. -/
theorem Settles.consumeIn {mode : LexMode} {next next' : Token → Parser β}
    (hnext : ∀ token, token.kind.IsSolid →
      Settles text room (next token) (next' token))
    (hother : ∀ token, ¬ token.kind.IsSolid →
      Settles text (room + 1) (next token) (next' token)) :
    Settles text (room + 1) (consumeIn mode >>= next)
      (consumeIn mode >>= next') := by
  have hfacts : ∀ {stream}, stream.Reads text →
      stream.unread < room + 1 → ∃ token after,
        Parser.consumeIn mode stream = .ok token after ∧ after.Reads text ∧
        ((next token after = next' token after) ∧
          ∀ {failure last}, next token after = .error failure last →
            failure.IsFounded text) := by
    intro stream hstream hroom
    have hrun : Parser.consumeIn mode stream =
        .ok (stream.forward mode fun _ => true).1
          (stream.forward mode fun _ => true).2 := forward_eq _ _ _
    have hdisciplined : Disciplined false (Parser.consumeIn mode) :=
      inferInstance
    have hafter := hdisciplined.reads hstream hrun
    refine ⟨_, _, hrun, hafter, ?_⟩
    by_cases hsolid :
        (stream.forward mode fun _ => true).1.kind.IsSolid
    · have hlt := (goesOn_of_consumeIn hrun hsolid).unread_lt hstream hafter
      have hroom := Nat.lt_of_lt_of_le hlt (Nat.le_of_lt_succ hroom)
      exact ⟨(hnext _ hsolid).agrees hafter hroom,
        (hnext _ hsolid).founded hafter hroom⟩
    · have hroom := Nat.lt_of_le_of_lt
        (hdisciplined.unread_le hstream hrun) hroom
      exact ⟨(hother _ hsolid).agrees hafter hroom,
        (hother _ hsolid).founded hafter hroom⟩
  constructor
  · intro stream hstream hroom
    obtain ⟨token, after, hrun, _, hagrees, _⟩ := hfacts hstream hroom
    rw [Outcome.bind_of_ok hrun, Outcome.bind_of_ok hrun, hagrees]
  · intro stream failure last hstream hroom herror
    obtain ⟨token, after, hrun, _, _, hfounded⟩ := hfacts hstream hroom
    rw [Outcome.bind_of_ok hrun] at herror
    exact hfounded herror

/-- A token that is of the kind asked for is consumed. -/
theorem accept_eq (kind : TokenKind) (stream : TokenStream) :
    accept kind stream =
      if (stream.prepare .standard).upcoming.kind = kind then
        .ok true (stream.prepare .standard).advance
      else .ok false (stream.prepare .standard) := by
  rw [accept, consumeWhen, bind_assoc, Outcome.bind_of_ok (forward_eq _ _ _),
    TokenStream.forward]
  by_cases hkind : (stream.prepare .standard).upcoming.kind = kind
  · simp only [hkind, decide_true, if_true]
    rfl
  · simp only [hkind, decide_false]
    rfl

theorem goesOnIf_acceptMark (mark : Punctuator) :
    GoesOnIf id (acceptMark mark) := by
  constructor
  intro stream accepted after hrun haccepted
  rw [acceptMark, accept_eq] at hrun
  split at hrun
  · rename_i hkind
    have hconsume : consume stream =
        .ok (stream.prepare .standard).upcoming after := by
      cases hrun
      rfl
    exact goesOn_of_consumeIn hconsume (by simp [hkind, TokenKind.IsSolid])
  · cases hrun
    cases haccepted

/-- A mark that is accepted takes up text, so only without it something else
has to. -/
instance {mark : Punctuator} {next : Bool → Parser β}
    [hdisciplined : ∀ accepted, Disciplined false (next accepted)]
    [hnext : GoesOnIf more (next false)] :
    GoesOnIf more (acceptMark mark >>= next) := by
  constructor
  intro stream result after hrun hmore
  have haccept : Disciplined false (acceptMark mark) := inferInstance
  obtain ⟨accepted, between, hfirst, hsecond⟩ :=
    Outcome.bind_eq_ok_iff.mp hrun
  cases accepted with
  | true =>
      exact ((goesOnIf_acceptMark mark).goesOn hfirst rfl).further
        (fun hstream => haccept.reads hstream hfirst) (hdisciplined true)
        hsecond
  | false => exact haccept.goesOn_later hfirst (hnext.goesOn hsecond hmore)

end GoingOn

/-! ### Repetition -/

section Repetition

variable {step step' : β → Parser (β ⊕ α)}

/-- As each step that goes on takes up text, there are no more of them than
unread bytes. -/
theorem Settles.iterateWith {fuel : Nat} {state : β}
    (hdisciplined : ∀ state, Disciplined false (step state))
    (hgoes : ∀ state, GoesOnIf Sum.isLeft (step state))
    (h : ∀ state, Settles text room (step state) (step' state))
    (hstream : stream.Reads text) (hroom : stream.unread < room)
    (hfuel : stream.unread < fuel) :
    iterateWith step fuel state stream = iterateWith step' fuel state stream ∧
      ∀ {failure last}, iterateWith step fuel state stream =
        .error failure last → failure.IsFounded text := by
  induction fuel generalizing state stream with
  | zero => exact absurd hfuel (Nat.not_lt_zero _)
  | succ fuel ih =>
      have hagrees := (h state).agrees hstream hroom
      rw [Parser.iterateWith, Parser.iterateWith]
      cases hrun : step state stream with
      | error failure between =>
          rw [Outcome.bind_of_error hrun,
            Outcome.bind_of_error (hagrees.symm.trans hrun)]
          refine ⟨rfl, fun herror => ?_⟩
          cases herror
          exact (h state).founded hstream hroom hrun
      | ok outcome between =>
          rw [Outcome.bind_of_ok hrun,
            Outcome.bind_of_ok (hagrees.symm.trans hrun)]
          cases outcome with
          | inr result => exact ⟨rfl, fun herror => by cases herror⟩
          | inl later =>
              have hbetween := (hdisciplined state).reads hstream hrun
              have hlt := ((hgoes state).goesOn hrun rfl).unread_lt hstream
                hbetween
              exact ih hbetween (Nat.lt_trans hlt hroom)
                (Nat.lt_of_lt_of_le hlt (Nat.le_of_lt_succ hfuel))

theorem Settles.iterate {state : β}
    (hdisciplined : ∀ state, Disciplined false (step state))
    (hgoes : ∀ state, GoesOnIf Sum.isLeft (step state))
    (h : ∀ state, Settles text room (step state) (step' state)) :
    Settles text room (iterate step state) (iterate step' state) := by
  have henough : ∀ stream : TokenStream, stream.unread < stream.unread + 2 :=
    fun stream => by omega
  exact ⟨fun hstream hroom => (Settles.iterateWith hdisciplined hgoes h
      hstream hroom (henough _)).1,
    fun hstream hroom hrun => (Settles.iterateWith hdisciplined hgoes h
      hstream hroom (henough _)).2 hrun⟩

instance {state : β} [hdisciplined : ∀ state, Disciplined false (step state)]
    [hgoes : ∀ state, GoesOnIf Sum.isLeft (step state)]
    [h : ∀ state, Settles text room (step state) (step' state)] :
    Settles text room (iterate step state) (iterate step' state) :=
  .iterate hdisciplined hgoes h

instance {item item' : Parser (Option α)}
    [hdisciplined : Disciplined false item]
    [hgoes : GoesOnIf Option.isSome item] [h : Settles text room item item'] :
    Settles text room (collect item) (collect item') := by
  have hstep : ∀ found, Disciplined false (do
      match ← item with
      | some value => return .inl (value :: found)
      | none => return .inr found : Parser (List α ⊕ List α)) :=
    fun found => .bind hdisciplined fun value => by cases value <;> infer_instance
  have hmore : ∀ found, GoesOnIf Sum.isLeft (do
      match ← item with
      | some value => return .inl (value :: found)
      | none => return .inr found : Parser (List α ⊕ List α)) := by
    intro found
    constructor
    intro stream outcome after hrun houtcome
    obtain ⟨value, between, hitem, hpure⟩ := Outcome.bind_eq_ok_iff.mp hrun
    cases value with
    | none =>
        cases hpure
        cases houtcome
    | some value =>
        cases hpure
        exact hgoes.goesOn hitem rfl
  have hsettles : ∀ found, Settles text room (do
      match ← item with
      | some value => return .inl (value :: found)
      | none => return .inr found : Parser (List α ⊕ List α)) (do
      match ← item' with
      | some value => return .inl (value :: found)
      | none => return .inr found) :=
    fun found => .bind hdisciplined h fun value => by
      cases value <;> infer_instance
  rw [collect, collect]
  infer_instance

instance {ends : List TokenKind} [Disciplined false parser]
    [Advances parser] [Settles text room parser parser'] :
    Settles text room (untilKind ends parser) (untilKind ends parser') := by
  rw [untilKind, untilKind]
  infer_instance

instance {close : Punctuator} [Disciplined false parser] [Advances parser]
    [Settles text room parser parser'] :
    Settles text room (commaList close parser) (commaList close parser') := by
  rw [commaList, commaList]
  infer_instance

end Repetition

end Parser

end Bundler
