import Bundler.Proofs.Parser.Termination

/-!
# Runs between places

Where a disciplined parser is in a text decides what it does, so a run of it is
described by the place it starts from, the value it yields and the place it
comes to.  Here is what the runs of the basic parsers are, and how the runs of
others are put together from them.  The grammar for a source is deep enough to
be its own next level, so with it these descriptions mention no depth.
-/

namespace Bundler

open TokenStream

namespace Lexeme

/-- A slash is a mark where it does not open a regular expression. -/
theorem kind_slash (cs : List Char) :
    (read .standard ('/' :: cs)).kind = .punctuator .slash ∨
      (read .standard ('/' :: cs)).kind = .punctuator .slashEquals := by
  have hread : read .standard ('/' :: cs) = punctuation ('/' :: cs) := rfl
  have hmark : Punctuator.longestAt? ('/' :: cs) = some .slashEquals ∨
      Punctuator.longestAt? ('/' :: cs) = some .slash := by
    by_cases hequals : ['='].isPrefixOf cs = true
    · left
      simp [Punctuator.longestAt?, Punctuator.all, Punctuator.text, hequals]
    · right
      simp [Punctuator.longestAt?, Punctuator.all, Punctuator.text, hequals]
  rw [hread]
  unfold punctuation
  rcases hmark with hmark | hmark
  · simp [hmark]
  · simp [hmark]

/-- Only a slash is read in two ways. -/
theorem read_slashIsRegex {text : List Char}
    (hslash : (read .standard text).kind ≠ .punctuator .slash)
    (hequals : (read .standard text).kind ≠ .punctuator .slashEquals) :
    read .slashIsRegex text = read .standard text := by
  cases text with
  | nil => rfl
  | cons c cs =>
      have hc : c ≠ '/' := by
        rintro rfl
        rcases kind_slash cs with h | h
        · exact hslash h
        · exact hequals h
      simp [read, hc]

end Lexeme

namespace TokenStream

variable {text : List Char} {stream stream' : TokenStream}

/-- Two streams at the same place of a text are alike. -/
theorem Reads.alike (h : stream.Reads text) (h' : stream'.Reads text)
    (hplace : stream.lastEnd = stream'.lastEnd) :
    Alike stream.consumed stream'.consumed 0 stream stream' where
  left := h.lexes.rebase
  right := h'.lexes.rebase
  size_eq := h.size_eq.trans h'.size_eq.symm
  consumed_left := rfl
  consumed_right := rfl
  stop_eq := hplace
  cursor_eq := by rw [h.cursorAt_consumed, h'.cursorAt_consumed, hplace]
  read_eq := fun index hindex => absurd hindex (Nat.not_lt_zero index)

/-- The token that lexing a text in a mode finds behind a place. -/
def tokenAt (text : List Char) (mode : LexMode) (place : Nat) : Token :=
  (lexToken mode ⟨place, Text.dropBytes place text⟩).token

theorem tokenAt_slashIsRegex {place : Nat}
    (hslash : (tokenAt text .standard place).kind ≠ .punctuator .slash)
    (hequals : (tokenAt text .standard place).kind ≠
      .punctuator .slashEquals) :
    tokenAt text .slashIsRegex place = tokenAt text .standard place := by
  have hread := Lexeme.read_slashIsRegex hslash hequals
  rw [tokenAt, tokenAt, lexToken, lexToken]
  · dsimp only
    rw [hread]
  · rintro ⟨⟩
  · rintro ⟨⟩

theorem le_start_tokenAt (text : List Char) (mode : LexMode) (place : Nat) :
    place ≤ (tokenAt text mode place).span.start :=
  (offset_le_lexToken mode ⟨place, Text.dropBytes place text⟩).1

theorem start_le_stop_tokenAt (text : List Char) (mode : LexMode)
    (place : Nat) :
    (tokenAt text mode place).span.start ≤
      (tokenAt text mode place).span.stop :=
  (offset_le_lexToken mode ⟨place, Text.dropBytes place text⟩).2

theorem Reads.upcoming_prepare (h : stream.Reads text) (mode : LexMode) :
    (stream.prepare mode).upcoming = tokenAt text mode stream.lastEnd := by
  rw [h.lexes.upcoming_prepare, h.cursorAt_consumed, tokenAt]

theorem Reads.lastEnd_prepare (h : stream.Reads text) (mode : LexMode) :
    (stream.prepare mode).lastEnd = stream.lastEnd := by
  rw [lastEnd_eq_stopAt, lastEnd_eq_stopAt, consumed_prepare]
  exact stopAt_congr fun index hindex =>
    h.lexes.getElem?_prepare mode hindex

/-- A text is read up to a place. -/
def Reaches (text : List Char) (place : Nat) : Prop :=
  ∃ stream : TokenStream, stream.Reads text ∧ stream.lastEnd = place

end TokenStream

namespace Parser

variable {α β : Type} {text : List Char} {parser : Parser α}
  {next : α → Parser β} {looks : Bool} {start stop : Nat} {value : α}
  {stream after : TokenStream}

/-- From a place of a text a parser reads a value and comes to another place. -/
def Runs (text : List Char) (parser : Parser α) (start : Nat) (value : α)
    (stop : Nat) : Prop :=
  ∃ stream after : TokenStream, stream.Reads text ∧ after.Reads text ∧
    stream.lastEnd = start ∧ after.lastEnd = stop ∧
    parser stream = .ok value after

theorem Runs.reaches_start (h : Runs text parser start value stop) :
    Reaches text start := by
  obtain ⟨stream, _, hstream, _, hstart, _, _⟩ := h
  exact ⟨stream, hstream, hstart⟩

theorem Runs.reaches_stop (h : Runs text parser start value stop) :
    Reaches text stop := by
  obtain ⟨_, after, _, hafter, _, hstop, _⟩ := h
  exact ⟨after, hafter, hstop⟩

theorem Disciplined.runs (h : Disciplined looks parser)
    (hstream : stream.Reads text) (hrun : parser stream = .ok value after) :
    Runs text parser stream.lastEnd value after.lastEnd :=
  ⟨stream, after, hstream, h.reads hstream hrun, rfl, rfl, hrun⟩

/-- A run from a place is one from every stream at this place. -/
theorem Disciplined.exists_run (h : Disciplined looks parser)
    (hrun : Runs text parser start value stop) (hstream : stream.Reads text)
    (hstart : stream.lastEnd = start) :
    ∃ after, parser stream = .ok value after ∧ after.Reads text ∧
      after.lastEnd = stop := by
  obtain ⟨other, last, hother, hlast, hplace, hstop, hrun⟩ := hrun
  have hagree := h.agree (hother.alike hstream (hplace.trans hstart.symm))
  rw [hrun] at hagree
  generalize hresult : parser stream = result at hagree
  cases hagree with
  | ok _ _ halike _ =>
      exact ⟨_, rfl, h.reads hstream hresult,
        halike.lastEnd_eq.symm.trans hstop⟩

theorem Runs.le (hrun : Runs text parser start value stop)
    [h : Disciplined false parser] : start ≤ stop := by
  obtain ⟨stream, after, hstream, _, rfl, rfl, hrun⟩ := hrun
  exact h.lastEnd_le hstream hrun

theorem Runs.lt (hrun : Runs text parser start value stop)
    [h : Advances parser] : start < stop := by
  obtain ⟨stream, after, hstream, _, rfl, rfl, hrun⟩ := hrun
  exact h.fills hstream hrun

/-! ### Composition -/

section Composition

@[simp]
theorem runs_pure {found : α} :
    Runs text (pure value) start found stop ↔
      Reaches text start ∧ found = value ∧ stop = start := by
  constructor
  · rintro ⟨stream, after, hstream, _, rfl, rfl, hrun⟩
    obtain ⟨rfl, rfl⟩ := Outcome.pure_eq_ok_iff.mp hrun
    exact ⟨⟨stream, hstream, rfl⟩, rfl, rfl⟩
  · rintro ⟨⟨stream, hstream, rfl⟩, rfl, rfl⟩
    exact ⟨stream, stream, hstream, hstream, rfl, rfl, rfl⟩

@[simp]
theorem not_runs_fail {error : SyntaxError} :
    ¬ Runs text (fail error) start value stop := by
  rintro ⟨_, _, _, _, _, _, hrun⟩
  cases hrun

theorem Disciplined.runs_bind (hparser : Disciplined false parser)
    (hnext : ∀ value, Disciplined false (next value)) {result : β} :
    Runs text (parser >>= next) start result stop ↔
      ∃ value between, Runs text parser start value between ∧
        Runs text (next value) between result stop := by
  constructor
  · rintro ⟨stream, after, hstream, hafter, rfl, rfl, hrun⟩
    obtain ⟨value, between, hfirst, hsecond⟩ :=
      Outcome.bind_eq_ok_iff.mp hrun
    have hbetween := hparser.reads hstream hfirst
    exact ⟨value, between.lastEnd, hparser.runs hstream hfirst,
      (hnext value).runs hbetween hsecond⟩
  · rintro ⟨value, place, ⟨stream, between, hstream, hbetween, hstart, hplace,
      hfirst⟩, hsecond⟩
    obtain ⟨after, hrun, hafter, hstop⟩ :=
      (hnext value).exists_run hsecond hbetween hplace
    exact ⟨stream, after, hstream, hafter, hstart, hstop,
      by rw [Outcome.bind_of_ok hfirst, hrun]⟩

theorem runs_bind [Disciplined false parser]
    [∀ value, Disciplined false (next value)] {result : β} :
    Runs text (parser >>= next) start result stop ↔
      ∃ value between, Runs text parser start value between ∧
        Runs text (next value) between result stop :=
  Disciplined.runs_bind inferInstance inferInstance

/-- The second part of a run, if the first one is known. -/
theorem Runs.bind [hparser : Disciplined false parser]
    [hnext : ∀ value, Disciplined false (next value)] {result : β}
    {between : Nat} (hfirst : Runs text parser start value between)
    (hsecond : Runs text (next value) between result stop) :
    Runs text (parser >>= next) start result stop :=
  runs_bind.mpr ⟨value, between, hfirst, hsecond⟩

theorem Disciplined.runs_rewinding {back : α → Bool}
    (hparser : Disciplined false parser)
    (hnext : ∀ value, Disciplined false (next value)) {result : β} :
    Runs text (Parser.rewinding parser back next) start result stop ↔
      ∃ value between, Runs text parser start value between ∧
        Runs text (next value) (if back value then start else between) result
          stop := by
  have hrest : ∀ {stream : TokenStream} {value between}, stream.Reads text →
      parser stream = .ok value between →
      (if back value then between.restore stream.checkpoint
        else between).Reads text ∧
      (if back value then between.restore stream.checkpoint
        else between).lastEnd =
          if back value then stream.lastEnd else between.lastEnd := by
    intro stream value between hstream hrun
    split
    · exact ⟨hparser.reads_restore hstream hrun,
        lastEnd_restore (hparser.leads hstream.lexes hrun).2⟩
    · exact ⟨hparser.reads hstream hrun, rfl⟩
  constructor
  · rintro ⟨stream, after, hstream, hafter, rfl, rfl, hrun⟩
    cases hfirst : parser stream with
    | error failure between =>
        rw [rewinding_of_error hfirst] at hrun
        cases hrun
    | ok value between =>
        rw [rewinding_of_ok hfirst] at hrun
        obtain ⟨hreads, hplace⟩ := hrest hstream hfirst
        refine ⟨value, between.lastEnd, hparser.runs hstream hfirst, ?_⟩
        rw [← hplace]
        exact (hnext value).runs hreads hrun
  · rintro ⟨value, place, ⟨stream, between, hstream, hbetween, rfl, rfl,
      hfirst⟩, hsecond⟩
    obtain ⟨hreads, hplace⟩ := hrest hstream hfirst
    obtain ⟨after, hrun, hafter, hstop⟩ :=
      (hnext value).exists_run hsecond hreads hplace
    exact ⟨stream, after, hstream, hafter, rfl, hstop,
      by rw [rewinding_of_ok hfirst, hrun]⟩

theorem runs_rewinding {back : α → Bool} [Disciplined false parser]
    [∀ value, Disciplined false (next value)] {result : β} :
    Runs text (rewinding parser back next) start result stop ↔
      ∃ value between, Runs text parser start value between ∧
        Runs text (next value) (if back value then start else between) result
          stop :=
  Disciplined.runs_rewinding inferInstance inferInstance

end Composition

/-! ### Tokens -/

section Tokens

theorem runs_forward {mode : LexMode} {keep : Token → Bool} {token : Token} :
    Runs text (forward mode keep) start token stop ↔
      Reaches text start ∧ token = tokenAt text mode start ∧
        stop = if keep token then token.span.stop else start := by
  have hfacts : ∀ {stream : TokenStream}, stream.Reads text →
      (stream.forward mode keep).1 = tokenAt text mode stream.lastEnd ∧
      (stream.forward mode keep).2.lastEnd =
        if keep (tokenAt text mode stream.lastEnd) then
          (tokenAt text mode stream.lastEnd).span.stop
        else stream.lastEnd := by
    intro stream hstream
    rw [TokenStream.forward]
    dsimp only
    rw [hstream.upcoming_prepare]
    refine ⟨rfl, ?_⟩
    split
    · rw [hstream.lexes.lastEnd_advance, hstream.upcoming_prepare]
    · exact hstream.lastEnd_prepare mode
  constructor
  · rintro ⟨stream, after, hstream, hafter, rfl, rfl, hrun⟩
    rw [forward_eq] at hrun
    obtain ⟨htoken, hplace⟩ := hfacts hstream
    cases hrun
    exact ⟨⟨stream, hstream, rfl⟩, htoken, by rw [hplace, htoken]⟩
  · rintro ⟨⟨stream, hstream, rfl⟩, rfl, rfl⟩
    obtain ⟨htoken, hplace⟩ := hfacts hstream
    exact ⟨stream, _, hstream, (inferInstance : Disciplined false
      (Parser.forward mode keep)).reads hstream (forward_eq mode keep stream),
      rfl, hplace, by rw [forward_eq, htoken]⟩

@[simp]
theorem runs_consumeIn {mode : LexMode} {token : Token} :
    Runs text (consumeIn mode) start token stop ↔
      Reaches text start ∧ token = tokenAt text mode start ∧
        stop = token.span.stop := by
  rw [consumeIn, runs_forward, if_pos rfl]

@[simp]
theorem runs_consume {token : Token} :
    Runs text consume start token stop ↔
      Reaches text start ∧ token = tokenAt text .standard start ∧
        stop = token.span.stop := runs_consumeIn

@[simp]
theorem runs_peekIn {mode : LexMode} {token : Token} :
    Runs text (peekIn mode) start token stop ↔
      Reaches text start ∧ token = tokenAt text mode start ∧ stop = start := by
  rw [peekIn, runs_forward, if_neg Bool.false_ne_true]

@[simp]
theorem runs_peek {token : Token} :
    Runs text peek start token stop ↔
      Reaches text start ∧ token = tokenAt text .standard start ∧
        stop = start := runs_peekIn

@[simp]
theorem runs_peekKind {kind : TokenKind} :
    Runs text peekKind start kind stop ↔
      Reaches text start ∧ kind = (tokenAt text .standard start).kind ∧
        stop = start := by
  rw [peekKind, runs_bind]
  constructor
  · rintro ⟨token, between, hpeek, hpure⟩
    obtain ⟨hstart, rfl, rfl⟩ := runs_peek.mp hpeek
    obtain ⟨_, rfl, rfl⟩ := runs_pure.mp hpure
    exact ⟨hstart, rfl, rfl⟩
  · rintro ⟨hstart, rfl, rfl⟩
    exact ⟨_, _, runs_peek.mpr ⟨hstart, rfl, rfl⟩,
      runs_pure.mpr ⟨hstart, rfl, rfl⟩⟩

/-- Behind a token a text is read on. -/
theorem reaches_next (h : Reaches text start) (mode : LexMode) :
    Reaches text (tokenAt text mode start).span.stop :=
  (runs_consumeIn.mpr ⟨h, rfl, rfl⟩).reaches_stop

theorem lt_stop_tokenAt (h : Reaches text start) {mode : LexMode}
    (hsolid : (tokenAt text mode start).kind.IsSolid) :
    start < (tokenAt text mode start).span.stop := by
  have hconsume : Runs text (consumeIn mode) start (tokenAt text mode start)
      (tokenAt text mode start).span.stop :=
    runs_consumeIn.mpr ⟨h, rfl, rfl⟩
  obtain ⟨stream, after, hstream, _, hstart, hstop, hrun⟩ := hconsume
  have hlt := (goesOn_of_consumeIn hrun hsolid).lastEnd_lt hstream
  rwa [hstart, hstop] at hlt

@[simp]
theorem runs_peekTwo {tokens : Token × Token} :
    Runs text peekTwo start tokens stop ↔
      Reaches text start ∧ tokens = (tokenAt text .standard start,
        tokenAt text .standard (tokenAt text .standard start).span.stop) ∧
        stop = start := by
  simp only [peekTwo_eq, runs_rewinding, if_true, runs_bind, runs_consume,
    runs_pure]
  constructor
  · rintro ⟨_, _, ⟨_, _, ⟨_, rfl, rfl⟩, _, _, ⟨_, rfl, rfl⟩, _, rfl, rfl⟩,
      hstart, rfl, rfl⟩
    exact ⟨hstart, rfl, rfl⟩
  · rintro ⟨hstart, rfl, rfl⟩
    exact ⟨_, _, ⟨_, _, ⟨hstart, rfl, rfl⟩, _, _,
      ⟨reaches_next hstart _, rfl, rfl⟩,
      reaches_next (reaches_next hstart _) _, rfl, rfl⟩, hstart, rfl, rfl⟩

theorem runs_accept {kind : TokenKind} {accepted : Bool} :
    Runs text (accept kind) start accepted stop ↔
      Reaches text start ∧
        if (tokenAt text .standard start).kind = kind then
          accepted = true ∧ stop = (tokenAt text .standard start).span.stop
        else accepted = false ∧ stop = start := by
  simp only [accept, consumeWhen, bind_assoc, pure_bind, runs_bind,
    runs_forward, runs_pure]
  by_cases hkind : (tokenAt text .standard start).kind = kind
  · simp only [hkind, if_true]
    constructor
    · rintro ⟨_, _, ⟨hstart, rfl, rfl⟩, _, rfl, rfl⟩
      simp [hkind, hstart]
    · rintro ⟨hstart, rfl, rfl⟩
      exact ⟨_, _, ⟨hstart, rfl, rfl⟩, by simp [hkind, reaches_next hstart]⟩
  · simp only [hkind, if_false]
    constructor
    · rintro ⟨_, _, ⟨hstart, rfl, rfl⟩, _, rfl, rfl⟩
      simp [hkind, hstart]
    · rintro ⟨hstart, rfl, rfl⟩
      exact ⟨_, _, ⟨hstart, rfl, rfl⟩, by simp [hkind, hstart]⟩

@[simp]
theorem runs_requireIn {mode : LexMode} {kind : TokenKind} {token : Token} :
    Runs text (requireIn mode kind) start token stop ↔
      Reaches text start ∧ token = tokenAt text mode start ∧
        token.kind = kind ∧ stop = token.span.stop := by
  rw [requireIn, runs_bind]
  constructor
  · rintro ⟨found, between, hconsume, hrun⟩
    obtain ⟨hstart, rfl, rfl⟩ := runs_consumeIn.mp hconsume
    split at hrun
    · obtain ⟨_, rfl, rfl⟩ := runs_pure.mp hrun
      exact ⟨hstart, rfl, ‹_›, rfl⟩
    · exact absurd hrun not_runs_fail
  · rintro ⟨hstart, rfl, hkind, rfl⟩
    refine ⟨_, _, runs_consumeIn.mpr ⟨hstart, rfl, rfl⟩, ?_⟩
    rw [if_pos hkind]
    exact runs_pure.mpr ⟨reaches_next hstart mode, rfl, rfl⟩

@[simp]
theorem runs_require {kind : TokenKind} {token : Token} :
    Runs text (require kind) start token stop ↔
      Reaches text start ∧ token = tokenAt text .standard start ∧
        token.kind = kind ∧ stop = token.span.stop := runs_requireIn

@[simp]
theorem runs_requireMark {mark : Punctuator} {token : Token} :
    Runs text (requireMark mark) start token stop ↔
      Reaches text start ∧ token = tokenAt text .standard start ∧
        token.kind = .punctuator mark ∧ stop = token.span.stop := runs_require

/-- What follows a mark that may be missing. -/
theorem runs_acceptMark_bind {mark : Punctuator} {next : Bool → Parser β}
    [∀ accepted, Disciplined false (next accepted)] {result : β} :
    Runs text (acceptMark mark >>= next) start result stop ↔
      Reaches text start ∧
        if (tokenAt text .standard start).kind = .punctuator mark then
          Runs text (next true) (tokenAt text .standard start).span.stop result
            stop
        else Runs text (next false) start result stop := by
  rw [runs_bind, acceptMark]
  constructor
  · rintro ⟨accepted, between, haccept, hrun⟩
    obtain ⟨hstart, haccept⟩ := runs_accept.mp haccept
    refine ⟨hstart, ?_⟩
    split at haccept <;> obtain ⟨rfl, rfl⟩ := haccept
    · rwa [if_pos ‹_›]
    · rwa [if_neg ‹_›]
  · rintro ⟨hstart, hrun⟩
    by_cases hkind :
        (tokenAt text .standard start).kind = .punctuator mark
    · rw [if_pos hkind] at hrun
      refine ⟨true, _, runs_accept.mpr ⟨hstart, ?_⟩, hrun⟩
      rw [if_pos hkind]
      exact ⟨rfl, rfl⟩
    · rw [if_neg hkind] at hrun
      refine ⟨false, _, runs_accept.mpr ⟨hstart, ?_⟩, hrun⟩
      rw [if_neg hkind]
      exact ⟨rfl, rfl⟩

/-- What stands behind a mark, if the mark is there. -/
theorem runs_afterMark {mark : Punctuator} [hparser : Disciplined false parser]
    {result : Option α} :
    Runs text (afterMark mark parser) start result stop ↔
      Reaches text start ∧
        if (tokenAt text .standard start).kind = .punctuator mark then
          ∃ value, result = some value ∧
            Runs text parser (tokenAt text .standard start).span.stop value stop
        else result = none ∧ stop = start := by
  rw [afterMark, runs_acceptMark_bind]
  refine and_congr_right fun hstart => ?_
  split
  · rw [if_pos rfl, runs_bind]
    constructor
    · rintro ⟨value, between, hrun, hpure⟩
      obtain ⟨_, rfl, rfl⟩ := runs_pure.mp hpure
      exact ⟨value, rfl, hrun⟩
    · rintro ⟨value, rfl, hrun⟩
      exact ⟨value, stop, hrun, runs_pure.mpr ⟨hrun.reaches_stop, rfl, rfl⟩⟩
  · rw [if_neg Bool.false_ne_true, runs_pure]
    exact and_iff_right hstart

/-- Reads all of a text. -/
def wholly (parser : Parser α) : Parser α := do
  let value ← parser
  let _ ← require .endOfInput
  return value

instance [Disciplined false parser] : Disciplined false (wholly parser) := by
  rw [wholly]
  infer_instance

/-- A text is read as a whole if the token behind what is read is its end. -/
theorem exists_wholly_iff [hparser : Disciplined false parser] :
    (∃ after, wholly parser (ofSource text) = .ok value after) ↔
      ∃ stop, Runs text parser 0 value stop ∧
        (tokenAt text .standard stop).kind = .endOfInput := by
  have hwholly : Disciplined false (wholly parser) := inferInstance
  have hsource := Program.reads_ofSource text
  constructor
  · rintro ⟨after, hrun⟩
    have hrun := hwholly.runs hsource hrun
    obtain ⟨_, place, hvalue, hrun⟩ := runs_bind.mp hrun
    obtain ⟨_, _, hend, hpure⟩ := runs_bind.mp hrun
    obtain ⟨_, rfl, _⟩ := runs_pure.mp hpure
    obtain ⟨_, rfl, hkind, _⟩ := runs_require.mp hend
    exact ⟨place, hvalue, hkind⟩
  · rintro ⟨stop, hvalue, hkind⟩
    have hend : Runs text (require .endOfInput) stop _ _ :=
      runs_require.mpr ⟨hvalue.reaches_stop, rfl, hkind, rfl⟩
    obtain ⟨after, hrun, _⟩ := hwholly.exists_run (.bind hvalue (.bind hend
      (runs_pure.mpr ⟨hend.reaches_stop, rfl, rfl⟩))) hsource rfl
    exact ⟨after, hrun⟩

end Tokens

/-! ### Ranges -/

section Ranges

/-- The first token that one stream has consumed and another one has not is what
lexing finds in the standard mode. -/
structure Opening (stream after : TokenStream) : Prop where
  consumed_lt : stream.consumed < after.consumed
  opening : after.buffer[stream.consumed]? =
    some (lexAt .standard (stream.cursorAt stream.consumed))

theorem Opening.further {between : TokenStream} (h : Opening stream between)
    (hleads : Leads 0 between after) : Opening stream after :=
  ⟨Nat.lt_of_lt_of_le h.consumed_lt hleads.consumed_le,
    (hleads.read_eq _ (Nat.zero_le _) h.consumed_lt).symm.trans h.opening⟩

theorem Opening.later {between : TokenStream} (hstream : stream.Reads text)
    (hbetween : between.Reads text) (hleads : Leads 0 stream between)
    (hconsumed : between.consumed = stream.consumed)
    (h : Opening between after) : Opening stream after := by
  refine ⟨hconsumed ▸ h.consumed_lt, ?_⟩
  rw [← hleads.cursorAt_eq hstream hbetween, ← hconsumed]
  exact h.opening

theorem opening_prepare (hstream : stream.Reads text) :
    Opening stream (stream.prepare .standard).advance :=
  ⟨Nat.lt_succ_of_le (Nat.le_of_eq (consumed_prepare .standard _).symm),
    hstream.lexes.getElem?_prepare_consumed .standard⟩

/-- Parsers that consume a token in the standard mode first. -/
class Opens {α : Type} (parser : Parser α) : Prop where
  opening : ∀ {text stream value after}, stream.Reads text →
    parser stream = .ok value after → Opening stream after

theorem Opens.bind (hparser : Opens parser)
    (hdisciplined : Disciplined false parser)
    (hnext : ∀ value, Disciplined false (next value)) :
    Opens (parser >>= next) := by
  constructor
  intro text stream result after hstream hrun
  obtain ⟨value, between, hfirst, hsecond⟩ := Outcome.bind_eq_ok_iff.mp hrun
  have hbetween := hdisciplined.reads hstream hfirst
  exact (hparser.opening hstream hfirst).further
    ((hnext value).leads hbetween.lexes hsecond).2

instance [Opens parser] [Disciplined false parser]
    [∀ value, Disciplined false (next value)] : Opens (parser >>= next) :=
  .bind inferInstance inferInstance inferInstance

instance : Opens (consumeIn .standard) := by
  constructor
  intro text stream token after hstream hrun
  rw [consumeIn, forward_eq] at hrun
  cases hrun
  exact opening_prepare hstream

instance : Opens consume :=
  inferInstanceAs (Opens (consumeIn .standard))

instance {condition : Prop} [Decidable condition] {other : Parser α}
    [h : Opens parser] [hother : Opens other] :
    Opens (if condition then parser else other) := by
  split
  · exact h
  · exact hother

instance {error : SyntaxError} : Opens (fail error : Parser α) :=
  ⟨fun _ hrun => by cases hrun⟩

instance {kind : TokenKind} : Opens (require kind) := by
  rw [require, requireIn]
  infer_instance

instance {mark : Punctuator} : Opens (requireMark mark) := by
  rw [requireMark]
  infer_instance

/-- A mark that may be missing is the first token if it is there. -/
instance {mark : Punctuator} {next : Bool → Parser β}
    [hdisciplined : ∀ accepted, Disciplined false (next accepted)]
    [hnext : Opens (next false)] : Opens (acceptMark mark >>= next) := by
  constructor
  intro text stream result after hstream hrun
  obtain ⟨accepted, between, hfirst, hsecond⟩ :=
    Outcome.bind_eq_ok_iff.mp hrun
  have haccept : Disciplined false (acceptMark mark) := inferInstance
  have hbetween := haccept.reads hstream hfirst
  have hleads := (haccept.leads hstream.lexes hfirst).2
  rw [acceptMark, accept_eq] at hfirst
  split at hfirst
  · cases hfirst
    exact (opening_prepare hstream).further
      ((hdisciplined true).leads hbetween.lexes hsecond).2
  · cases hfirst
    exact (hnext.opening hbetween hsecond).later hstream hbetween hleads
      (consumed_prepare .standard stream)

theorem runs_withSpan [hparser : Opens parser]
    [hdisciplined : Disciplined true parser] {span : Span} :
    Runs text (withSpan parser) start (span, value) stop ↔
      Runs text parser start value stop ∧
        span = ⟨(tokenAt text .standard start).span.start, stop⟩ := by
  have hspan : ∀ {stream : TokenStream} {value after}, stream.Reads text →
      parser stream = .ok value after →
      after.spanSince stream.checkpoint =
        ⟨(tokenAt text .standard stream.lastEnd).span.start,
          after.lastEnd⟩ := by
    intro stream value after hstream hrun
    obtain ⟨hlt, htoken⟩ := hparser.opening hstream hrun
    rw [TokenStream.checkpoint, spanSince_of_lt hlt htoken,
      hstream.cursorAt_consumed]
    rfl
  constructor
  · rintro ⟨stream, after, hstream, hafter, rfl, rfl, hrun⟩
    cases hparser : parser stream with
    | error failure between =>
        rw [withSpan_of_error hparser] at hrun
        cases hrun
    | ok found between =>
        rw [withSpan_of_ok hparser] at hrun
        cases hrun
        exact ⟨hdisciplined.runs hstream hparser, hspan hstream hparser⟩
  · rintro ⟨⟨stream, after, hstream, hafter, rfl, rfl, hrun⟩, rfl⟩
    exact ⟨stream, after, hstream, hafter, rfl, rfl,
      by rw [withSpan_of_ok hrun, hspan hstream hrun]⟩

theorem runs_node {shape : Parser (Shape Node)} [Opens shape]
    [hdisciplined : Disciplined true shape] {result : Node} :
    Runs text (node shape) start result stop ↔
      ∃ value, Runs text shape start value stop ∧
        result = .mk ⟨(tokenAt text .standard start).span.start, stop⟩
          value := by
  have : Disciplined false (withSpan shape) := .withSpan hdisciplined
  rw [node, runs_bind]
  constructor
  · rintro ⟨⟨span, value⟩, between, hrun, hpure⟩
    obtain ⟨_, rfl, rfl⟩ := runs_pure.mp hpure
    obtain ⟨hshape, rfl⟩ := runs_withSpan.mp hrun
    exact ⟨value, hshape, rfl⟩
  · rintro ⟨value, hrun, rfl⟩
    exact ⟨_, _, runs_withSpan.mpr ⟨hrun, rfl⟩,
      runs_pure.mpr ⟨hrun.reaches_stop, rfl, rfl⟩⟩

theorem Runs.exists_node {shape : Parser (Shape Node)} {value : Shape Node}
    (h : Runs text shape start value stop) :
    ∃ span, Runs text (node shape) start (.mk span value) stop := by
  obtain ⟨stream, after, hstream, hafter, hstart, hstop, hrun⟩ := h
  refine ⟨after.spanSince stream.checkpoint, stream, after, hstream, hafter,
    hstart, hstop, ?_⟩
  rw [node, Outcome.bind_of_ok (withSpan_of_ok hrun)]
  rfl

end Ranges

/-! ### Repetition -/

section Repetition

variable {step : β → Parser (β ⊕ α)} {state : β}

/-- Steps one after the other from a place on, up to one that yields a
result. -/
inductive Repeats (text : List Char) (step : β → Parser (β ⊕ α)) :
    β → Nat → α → Nat → Prop
  | done {state : β} {start : Nat} {result : α} {stop : Nat} :
      Runs text (step state) start (.inr result) stop →
      Repeats text step state start result stop
  | more {state later : β} {start between : Nat} {result : α} {stop : Nat} :
      Runs text (step state) start (.inl later) between →
      Repeats text step later between result stop →
      Repeats text step state start result stop

theorem Repeats.iterateWith
    (hdisciplined : ∀ state, Disciplined false (step state))
    (hgoes : ∀ state, GoesOnIf Sum.isLeft (step state))
    (h : Repeats text step state start value stop) {fuel : Nat}
    (hstream : stream.Reads text) (hstart : stream.lastEnd = start)
    (hfuel : stream.unread < fuel) :
    ∃ after, Parser.iterateWith step fuel state stream = .ok value after ∧
      after.Reads text ∧ after.lastEnd = stop := by
  induction h generalizing stream fuel with
  | done hdone =>
      obtain ⟨after, hrun, hafter, hstop⟩ :=
        (hdisciplined _).exists_run hdone hstream hstart
      cases fuel with
      | zero => exact absurd hfuel (Nat.not_lt_zero _)
      | succ fuel =>
          rw [Parser.iterateWith, Outcome.bind_of_ok hrun]
          exact ⟨after, rfl, hafter, hstop⟩
  | more hmore _ ih =>
      obtain ⟨between, hrun, hbetween, hplace⟩ :=
        (hdisciplined _).exists_run hmore hstream hstart
      have hlt := ((hgoes _).goesOn hrun rfl).unread_lt hstream hbetween
      cases fuel with
      | zero => exact absurd hfuel (Nat.not_lt_zero _)
      | succ fuel =>
          rw [Parser.iterateWith, Outcome.bind_of_ok hrun]
          exact ih hbetween hplace
            (Nat.lt_of_lt_of_le hlt (Nat.le_of_lt_succ hfuel))

theorem repeats_of_iterateWith
    (hdisciplined : ∀ state, Disciplined false (step state)) {fuel : Nat}
    (hstream : stream.Reads text)
    (hrun : Parser.iterateWith step fuel state stream = .ok value after) :
    Repeats text step state stream.lastEnd value after.lastEnd := by
  induction fuel generalizing state stream with
  | zero => cases hrun
  | succ fuel ih =>
      rw [Parser.iterateWith] at hrun
      obtain ⟨outcome, between, hfirst, hrest⟩ :=
        Outcome.bind_eq_ok_iff.mp hrun
      have hbetween := (hdisciplined state).reads hstream hfirst
      cases outcome with
      | inl later =>
          exact .more ((hdisciplined state).runs hstream hfirst)
            (ih hbetween hrest)
      | inr result =>
          obtain ⟨rfl, rfl⟩ := Outcome.pure_eq_ok_iff.mp hrest
          exact .done ((hdisciplined state).runs hstream hfirst)

/-- A loop ends where its steps end: they run out of text before the loop runs
out of steps. -/
theorem runs_iterate [hdisciplined : ∀ state, Disciplined false (step state)]
    [hgoes : ∀ state, GoesOnIf Sum.isLeft (step state)] :
    Runs text (iterate step state) start value stop ↔
      Repeats text step state start value stop := by
  constructor
  · rintro ⟨stream, after, hstream, hafter, rfl, rfl, hrun⟩
    exact repeats_of_iterateWith hdisciplined hstream hrun
  · intro h
    have hstart : Reaches text start := by
      cases h with
      | done hdone => exact hdone.reaches_start
      | more hmore => exact hmore.reaches_start
    obtain ⟨stream, hstream, hplace⟩ := hstart
    have hfuel : stream.unread < stream.unread + 2 := by omega
    obtain ⟨after, hrun, hafter, hstop⟩ :=
      h.iterateWith hdisciplined hgoes hstream hplace hfuel
    exact ⟨stream, after, hstream, hafter, hplace, hstop, hrun⟩

end Repetition

end Parser

/-! ### The grammar for a source -/

namespace Grammar

open Bundler.Parser

variable {α : Type} {rules : NameRules} {source : String} {start stop : Nat}
  {node : Node}

theorem runs_of_settles {parser parser' : Parser α} {value : α}
    (h : Settles source.toList (source.utf8ByteSize + 2) parser parser') :
    Runs source.toList parser start value stop ↔
      Runs source.toList parser' start value stop := by
  have hagrees : ∀ {stream : TokenStream}, stream.Reads source.toList →
      parser stream = parser' stream :=
    fun hstream => h.agrees hstream (unread_lt hstream)
  constructor
  · rintro ⟨stream, after, hstream, hafter, hstart, hstop, hrun⟩
    exact ⟨stream, after, hstream, hafter, hstart, hstop,
      (hagrees hstream).symm.trans hrun⟩
  · rintro ⟨stream, after, hstream, hafter, hstart, hstop, hrun⟩
    exact ⟨stream, after, hstream, hafter, hstart, hstop,
      (hagrees hstream).trans hrun⟩

/-- For its source a grammar is its own next level. -/
theorem settling_deepen :
    Settling source.toList (source.utf8ByteSize + 2) (forSource rules source)
      (forSource rules source).deepen := by
  have hdeepen : ∀ depth, (ofDepth rules depth).deepen =
      ofDepth rules (depth + 1) := fun depth => rfl
  have hdeeper := hdeepen (2 * source.utf8ByteSize + 4)
  rw [← forSource] at hdeeper
  rw [hdeeper]
  exact settling_deeper (Nat.le_succ _)

theorem runs_expressionFrom {least : Nat} {ends : List TokenKind}
    {lineEnds : Bool} :
    Runs source.toList
        ((forSource rules source).expressionFrom least ends lineEnds) start node
        stop ↔
      Runs source.toList
        ((forSource rules source).expressionRule least ends lineEnds) start node
        stop :=
  runs_of_settles (settling_deepen.expressionFrom least ends lineEnds)

theorem runs_pattern :
    Runs source.toList (forSource rules source).pattern start node stop ↔
      Runs source.toList (forSource rules source).patternRule start node stop :=
  runs_of_settles settling_deepen.pattern

end Grammar

end Bundler
