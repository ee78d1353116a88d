import Bundler.Parser.Stream
import Bundler.Proofs.Lexer.Partition

/-!
# What a token stream holds

The buffer of a stream is a memory of what lexing finds, and nothing else: each
token in it is what its mode finds where the token before it ends.  Looking at
the next token therefore always yields what lexing finds behind the consumed
tokens, whatever had been buffered ahead.  Consumed tokens stand one behind the
other, in the range from the first of them to the end of the last.
-/

namespace Bundler

namespace TokenStream

variable {base : Nat} {stream : TokenStream}

/-- What lexing in a mode finds at a cursor, as it is buffered. -/
def lexAt (mode : LexMode) (cursor : Cursor) : BufferedToken :=
  let lexed := lexToken mode cursor
  ⟨lexed.token, mode, lexed.after⟩

/-- The place behind the first `count` buffered tokens. -/
def cursorAt (stream : TokenStream) (count : Nat) : Cursor :=
  if count = 0 then stream.origin
  else (stream.buffer[count - 1]?.map (·.after)).getD stream.origin

/-- The end of the last of the first `count` buffered tokens. -/
def stopAt (stream : TokenStream) (count : Nat) : Nat :=
  if count = 0 then 0
  else (stream.buffer[count - 1]?.map (·.token.span.stop)).getD 0

theorem lastEnd_eq_stopAt (stream : TokenStream) :
    stream.lastEnd = stream.stopAt stream.consumed := rfl

theorem cursorAt_congr {first second : TokenStream} {count : Nat}
    (horigin : first.origin = second.origin)
    (hbuffer : ∀ index < count,
      first.buffer[index]? = second.buffer[index]?) :
    first.cursorAt count = second.cursorAt count := by
  rw [cursorAt, cursorAt]
  by_cases hcount : count = 0
  · rw [if_pos hcount, if_pos hcount, horigin]
  · rw [hbuffer (count - 1) (by omega), horigin]

theorem stopAt_congr {first second : TokenStream} {count : Nat}
    (hbuffer : ∀ index < count,
      first.buffer[index]? = second.buffer[index]?) :
    first.stopAt count = second.stopAt count := by
  rw [stopAt, stopAt]
  by_cases hcount : count = 0
  · rw [if_pos hcount, if_pos hcount]
  · rw [hbuffer (count - 1) (by omega)]

theorem cursorAt_succ {count : Nat} {next : BufferedToken}
    (hnext : stream.buffer[count]? = some next) :
    stream.cursorAt (count + 1) = next.after := by
  simp [cursorAt, hnext]

theorem stopAt_succ {count : Nat} {next : BufferedToken}
    (hnext : stream.buffer[count]? = some next) :
    stream.stopAt (count + 1) = next.token.span.stop := by
  simp [stopAt, hnext]

/-- From its first `base` tokens on, the buffer holds what lexing finds, each
token at the place where the one before it ends. -/
structure Lexes (base : Nat) (stream : TokenStream) : Prop where
  base_le : base ≤ stream.consumed
  consumed_le : stream.consumed ≤ stream.buffer.size
  cursor_eq : stream.cursor = stream.cursorAt stream.buffer.size
  lexed : ∀ index next, base ≤ index → stream.buffer[index]? = some next →
    next = lexAt next.mode (stream.cursorAt index)

/-! ### Filling the buffer -/

theorem getElem?_lexAhead (mode : LexMode) (stream : TokenStream)
    (index : Nat) :
    (stream.lexAhead mode).buffer[index]? =
      if index = stream.buffer.size then some (lexAt mode stream.cursor)
      else stream.buffer[index]? := Array.getElem?_push

theorem getElem?_discardAhead (stream : TokenStream) (index : Nat) :
    stream.discardAhead.buffer[index]? =
      if index < stream.consumed then stream.buffer[index]? else none := by
  simp only [discardAhead, Array.take_eq_extract, Array.getElem?_extract,
    Nat.zero_add, Nat.sub_zero]
  by_cases hsize : index < stream.buffer.size
  · simp only [Nat.lt_min, hsize, and_true]
  · rw [Array.getElem?_eq_none (Nat.le_of_not_lt hsize), ite_self, ite_self]

theorem Lexes.lexAhead (h : stream.Lexes base) (mode : LexMode) :
    (stream.lexAhead mode).Lexes base := by
  have hcursorAt : ∀ count ≤ stream.buffer.size,
      (stream.lexAhead mode).cursorAt count = stream.cursorAt count := by
    intro count hcount
    apply cursorAt_congr (by rfl)
    intro index hindex
    rw [getElem?_lexAhead, if_neg (by omega)]
  have hsize : (stream.lexAhead mode).buffer.size = stream.buffer.size + 1 :=
    Array.size_push ..
  have hlast : (stream.lexAhead mode).buffer[stream.buffer.size]? =
      some (lexAt mode stream.cursor) := by
    rw [getElem?_lexAhead, if_pos rfl]
  refine ⟨h.base_le, ?_, ?_, ?_⟩
  · rw [hsize]
    exact Nat.le_succ_of_le h.consumed_le
  · rw [hsize, cursorAt_succ hlast]
    rfl
  · intro index next hbase hnext
    rw [getElem?_lexAhead] at hnext
    split at hnext
    · rename_i hindex
      cases hnext
      rw [hindex, hcursorAt _ (Nat.le_refl _), ← h.cursor_eq]
      rfl
    · have hlt : index < stream.buffer.size :=
        (Array.getElem?_eq_some_iff.mp hnext).1
      rw [hcursorAt index (Nat.le_of_lt hlt)]
      exact h.lexed index next hbase hnext

theorem cursorAt_discardAhead {count : Nat}
    (hcount : count ≤ stream.consumed) :
    stream.discardAhead.cursorAt count = stream.cursorAt count := by
  apply cursorAt_congr (by rfl)
  intro index hindex
  rw [getElem?_discardAhead, if_pos (by omega)]

theorem Lexes.size_discardAhead (h : stream.Lexes base) :
    stream.discardAhead.buffer.size = stream.consumed := by
  have hmin := Nat.min_eq_left h.consumed_le
  simpa [TokenStream.discardAhead] using hmin

theorem Lexes.discardAhead (h : stream.Lexes base) :
    stream.discardAhead.Lexes base := by
  have hsize := h.size_discardAhead
  refine ⟨h.base_le, Nat.le_of_eq hsize.symm, ?_, ?_⟩
  · rw [hsize]
    simp only [TokenStream.discardAhead, cursorAt, Array.back?_eq_getElem?]
      at hsize ⊢
    rw [hsize]
    by_cases hzero : stream.consumed = 0
    · simp [hzero]
    · rw [if_neg hzero]
  · intro index next hbase hnext
    rw [getElem?_discardAhead] at hnext
    split at hnext
    · rename_i hlt
      rw [cursorAt_discardAhead (Nat.le_of_lt hlt)]
      exact h.lexed index next hbase hnext
    · cases hnext

@[simp]
theorem consumed_prepare (mode : LexMode) (stream : TokenStream) :
    (stream.prepare mode).consumed = stream.consumed := by
  rw [prepare]
  split <;> (try split) <;> rfl

@[simp]
theorem size_prepare (mode : LexMode) (stream : TokenStream) :
    (stream.prepare mode).size = stream.size := by
  rw [prepare]
  split <;> (try split) <;> rfl

@[simp]
theorem origin_prepare (mode : LexMode) (stream : TokenStream) :
    (stream.prepare mode).origin = stream.origin := by
  rw [prepare]
  split <;> (try split) <;> rfl

theorem Lexes.prepare (h : stream.Lexes base) (mode : LexMode) :
    (stream.prepare mode).Lexes base := by
  rw [TokenStream.prepare]
  split
  · split
    · exact h
    · exact h.discardAhead.lexAhead mode
  · exact h.lexAhead mode

/-- Looking at the next token keeps the consumed ones. -/
theorem Lexes.getElem?_prepare (h : stream.Lexes base) (mode : LexMode)
    {index : Nat} (hindex : index < stream.consumed) :
    (stream.prepare mode).buffer[index]? = stream.buffer[index]? := by
  have hsize := h.consumed_le
  rw [TokenStream.prepare]
  split
  · split
    · rfl
    · rw [getElem?_lexAhead, h.size_discardAhead, if_neg (by omega),
        getElem?_discardAhead, if_pos hindex]
  · rw [getElem?_lexAhead, if_neg (by omega)]

/-- Looking at the next token finds what lexing finds behind the consumed ones,
whatever had been buffered there. -/
theorem Lexes.getElem?_prepare_consumed (h : stream.Lexes base)
    (mode : LexMode) :
    (stream.prepare mode).buffer[stream.consumed]? =
      some (lexAt mode (stream.cursorAt stream.consumed)) := by
  rw [TokenStream.prepare]
  split
  · rename_i next hnext
    split
    · rename_i hmode
      rw [hnext, h.lexed _ next h.base_le hnext, hmode]
    · rw [getElem?_lexAhead, h.size_discardAhead, if_pos rfl,
        h.discardAhead.cursor_eq, h.size_discardAhead,
        cursorAt_discardAhead (Nat.le_refl _)]
  · rename_i hnext
    have hsize : stream.consumed = stream.buffer.size :=
      Nat.le_antisymm h.consumed_le (Array.getElem?_eq_none_iff.mp hnext)
    rw [getElem?_lexAhead, if_pos hsize, h.cursor_eq, hsize]

/-- The next token in a mode is what lexing finds behind the consumed ones. -/
theorem Lexes.upcoming_prepare (h : stream.Lexes base) (mode : LexMode) :
    (stream.prepare mode).upcoming =
      (lexToken mode (stream.cursorAt stream.consumed)).token := by
  have hnext := h.getElem?_prepare_consumed mode
  rw [upcoming, consumed_prepare, hnext]
  rfl

/-- A token that has been looked at is at hand. -/
theorem Lexes.prepare_prepare (h : stream.Lexes base) (mode : LexMode) :
    (stream.prepare mode).prepare mode = stream.prepare mode := by
  have hnext := h.getElem?_prepare_consumed mode
  rw [← consumed_prepare mode stream] at hnext
  generalize stream.prepare mode = prepared at hnext
  rw [TokenStream.prepare, hnext]
  exact if_pos rfl

/-- The range of a single token is that of the token. -/
theorem Lexes.spanSince_advance (h : stream.Lexes base) (mode : LexMode) :
    (stream.prepare mode).advance.spanSince stream.checkpoint =
      (stream.prepare mode).upcoming.span := by
  have hnext := h.getElem?_prepare_consumed mode
  have hstop := stopAt_succ hnext
  rw [upcoming, consumed_prepare, hnext, spanSince, lastEnd_eq_stopAt]
  simp only [advance, checkpoint, consumed_prepare] at hnext hstop ⊢
  rw [hnext, if_neg (by omega)]
  exact congrArg _ hstop

/-! ### Going on -/

/-- From `base` on, the tokens that a stream has consumed are consumed in another
one as well. -/
structure Leads (base : Nat) (stream later : TokenStream) : Prop where
  consumed_le : stream.consumed ≤ later.consumed
  read_eq : ∀ index, base ≤ index → index < stream.consumed →
    stream.buffer[index]? = later.buffer[index]?

namespace Leads

variable {first second third : TokenStream}

theorem refl (stream : TokenStream) : Leads base stream stream :=
  ⟨Nat.le_refl _, fun _ _ _ => rfl⟩

theorem trans (hfirst : Leads base first second)
    (hsecond : Leads base second third) : Leads base first third :=
  ⟨Nat.le_trans hfirst.consumed_le hsecond.consumed_le,
    fun index hbase hindex => (hfirst.read_eq index hbase hindex).trans
      (hsecond.read_eq index hbase
        (Nat.lt_of_lt_of_le hindex hfirst.consumed_le))⟩

end Leads

/-- Consuming the token that has been looked at goes on. -/
theorem Lexes.advance_prepare (h : stream.Lexes base) (mode : LexMode) :
    (stream.prepare mode).advance.Lexes base := by
  have hprepared := h.prepare mode
  have hnext := h.getElem?_prepare_consumed mode
  have hlt : stream.consumed < (stream.prepare mode).buffer.size :=
    (Array.getElem?_eq_some_iff.mp hnext).1
  refine ⟨?_, ?_, hprepared.cursor_eq, hprepared.lexed⟩
  · exact Nat.le_succ_of_le hprepared.base_le
  · rw [advance, consumed_prepare]
    exact hlt

theorem Lexes.forward (h : stream.Lexes base) (mode : LexMode)
    (keep : Token → Bool) :
    (stream.forward mode keep).2.Lexes base ∧
      Leads base stream (stream.forward mode keep).2 := by
  have hkept : ∀ index, base ≤ index → index < stream.consumed →
      stream.buffer[index]? = (stream.prepare mode).buffer[index]? :=
    fun index _ hindex => (h.getElem?_prepare mode hindex).symm
  rw [TokenStream.forward]
  dsimp only
  split
  · refine ⟨h.advance_prepare mode, ?_, hkept⟩
    rw [advance, consumed_prepare]
    exact Nat.le_succ _
  · exact ⟨h.prepare mode, Nat.le_of_eq (consumed_prepare mode stream).symm,
      hkept⟩

/-- Going back to where a stream has come from keeps what was consumed there. -/
theorem Lexes.restore {later : TokenStream} (h : stream.Lexes base)
    (hlater : later.Lexes base) (hleads : Leads base stream later) :
    (later.restore stream.checkpoint).Lexes base ∧
      Leads base stream (later.restore stream.checkpoint) :=
  ⟨⟨h.base_le, Nat.le_trans hleads.consumed_le hlater.consumed_le,
      hlater.cursor_eq, hlater.lexed⟩,
    Nat.le_refl _, hleads.read_eq⟩

/-- A buffered token stands between the ends of the one before it and its own. -/
theorem Lexes.offset_le_span (h : stream.Lexes base) {index : Nat}
    {next : BufferedToken} (hbase : base ≤ index)
    (hnext : stream.buffer[index]? = some next) :
    (stream.cursorAt index).offset ≤ next.token.span.start ∧
      next.token.span.start ≤ next.token.span.stop ∧
      next.token.span.stop = (stream.cursorAt (index + 1)).offset := by
  have hlexed := h.lexed index next hbase hnext
  obtain ⟨hstart, hstop⟩ := offset_le_lexToken next.mode (stream.cursorAt index)
  rw [cursorAt_succ hnext]
  rw [hlexed]
  exact ⟨hstart, hstop, stop_lexToken _ _⟩

theorem Lexes.offset_mono (h : stream.Lexes base) {first second : Nat}
    (hbase : base ≤ first) (hle : first ≤ second)
    (hsize : second ≤ stream.buffer.size) :
    (stream.cursorAt first).offset ≤ (stream.cursorAt second).offset := by
  induction hle with
  | refl => exact Nat.le_refl _
  | @step second hle ih =>
      have hnext : stream.buffer[second]? = some stream.buffer[second] :=
        Array.getElem?_eq_getElem hsize
      obtain ⟨hstart, hstop, hoffset⟩ :=
        h.offset_le_span (Nat.le_trans hbase hle) hnext
      rw [← hoffset]
      exact Nat.le_trans (ih (Nat.le_of_succ_le hsize))
        (Nat.le_trans hstart hstop)

/-- Of two buffered tokens one stands behind the other. -/
theorem Lexes.stop_le_start (h : stream.Lexes base) {first second : Nat}
    {token next : BufferedToken} (hbase : base ≤ first) (hlt : first < second)
    (htoken : stream.buffer[first]? = some token)
    (hnext : stream.buffer[second]? = some next) :
    token.token.span.stop ≤ next.token.span.start := by
  have hsize : second < stream.buffer.size :=
    (Array.getElem?_eq_some_iff.mp hnext).1
  calc token.token.span.stop
      = (stream.cursorAt (first + 1)).offset :=
        (h.offset_le_span hbase htoken).2.2
    _ ≤ (stream.cursorAt second).offset :=
        h.offset_mono (Nat.le_succ_of_le hbase) hlt (Nat.le_of_lt hsize)
    _ ≤ next.token.span.start :=
        (h.offset_le_span (Nat.le_trans hbase (Nat.le_of_lt hlt)) hnext).1

/-- What holds of the tokens from `base` on holds of those that are still to
come. -/
theorem Lexes.rebase (h : stream.Lexes base) : stream.Lexes stream.consumed :=
  ⟨Nat.le_refl _, h.consumed_le, h.cursor_eq, fun index next hindex =>
    h.lexed index next (Nat.le_trans h.base_le hindex)⟩

/-- A token is one of those consumed from `base` on. -/
def Consumes (base : Nat) (stream : TokenStream) (token : Token) : Prop :=
  ∃ index next, base ≤ index ∧ index < stream.consumed ∧
    stream.buffer[index]? = some next ∧ next.token = token

/-- Consumed tokens do not overlap. -/
theorem Lexes.apart (h : stream.Lexes base) {token other : Token}
    (htoken : Consumes base stream token)
    (hother : Consumes base stream other) :
    token = other ∨ token.span.stop ≤ other.span.start ∨
      other.span.stop ≤ token.span.start := by
  obtain ⟨first, _, hfirst, _, htoken, rfl⟩ := htoken
  obtain ⟨second, _, hsecond, _, hother, rfl⟩ := hother
  rcases Nat.lt_trichotomy first second with hlt | rfl | hlt
  · exact .inr (.inl (h.stop_le_start hfirst hlt htoken hother))
  · rw [htoken] at hother
    exact .inl (congrArg _ (Option.some.inj hother))
  · exact .inr (.inr (h.stop_le_start hsecond hlt hother htoken))

/-- The range since a checkpoint starts at the first token consumed since. -/
theorem spanSince_of_lt {next : BufferedToken} (hlt : base < stream.consumed)
    (hnext : stream.buffer[base]? = some next) :
    stream.spanSince ⟨base⟩ = ⟨next.token.span.start, stream.lastEnd⟩ := by
  rw [spanSince]
  dsimp only
  rw [if_neg (Nat.not_le_of_lt hlt), hnext]
  rfl

theorem Lexes.exists_consumed (h : stream.Lexes base) {index : Nat}
    (hindex : index < stream.consumed) :
    ∃ next, stream.buffer[index]? = some next :=
  ⟨_, Array.getElem?_eq_getElem (Nat.lt_of_lt_of_le hindex h.consumed_le)⟩

/-- If tokens are consumed since a checkpoint, there is a last one of them. -/
theorem Lexes.exists_last (h : stream.Lexes base)
    (hlt : base < stream.consumed) :
    ∃ last, stream.buffer[stream.consumed - 1]? = some last ∧
      stream.lastEnd = last.token.span.stop := by
  obtain ⟨last, hlast⟩ := h.exists_consumed
    (Nat.sub_one_lt (Nat.ne_of_gt (Nat.zero_lt_of_lt hlt)))
  refine ⟨last, hlast, ?_⟩
  rw [lastEnd, if_neg (Nat.ne_of_gt (Nat.zero_lt_of_lt hlt)), hlast]
  rfl

/-- The tokens consumed since a checkpoint are in the range from there on. -/
theorem Lexes.spanSince_encloses (h : stream.Lexes base) {token : Token}
    (htoken : Consumes base stream token) :
    (stream.spanSince ⟨base⟩).start ≤ token.span.start ∧
      token.span.stop ≤ (stream.spanSince ⟨base⟩).stop := by
  obtain ⟨index, next, hbase, hindex, hnext, rfl⟩ := htoken
  have hlt := Nat.lt_of_le_of_lt hbase hindex
  obtain ⟨first, hstart⟩ := h.exists_consumed hlt
  obtain ⟨last, hlast, hstop⟩ := h.exists_last hlt
  rw [spanSince_of_lt hlt hstart, hstop]
  constructor
  · rcases Nat.eq_or_lt_of_le hbase with rfl | hlt
    · rw [hstart] at hnext
      exact Nat.le_of_eq (congrArg (·.token.span.start)
        (Option.some.inj hnext))
    · have hfirst := h.offset_le_span (Nat.le_refl base) hstart
      exact Nat.le_trans hfirst.2.1
        (h.stop_le_start (Nat.le_refl base) hlt hstart hnext)
  · rcases Nat.eq_or_lt_of_le (Nat.le_sub_one_of_lt hindex) with heq | hlt
    · rw [heq, hlast] at hnext
      exact Nat.le_of_eq (congrArg (·.token.span.stop)
        (Option.some.inj hnext).symm)
    · have hend := h.offset_le_span (Nat.le_trans hbase (Nat.le_of_lt hlt))
        hlast
      exact Nat.le_trans (h.stop_le_start hbase hlt hnext hlast) hend.2.1

/-! ### Streams of a source -/

theorem lexes_ofSource (source : List Char) :
    (ofSource source).Lexes 0 :=
  ⟨Nat.le_refl 0, Nat.le_refl 0, rfl, fun _ _ _ hnext => by cases hnext⟩

/-- A stream reads a text if it has been filled from it. -/
structure Reads (text : List Char) (stream : TokenStream) : Prop where
  lexes : stream.Lexes 0
  origin_eq : stream.origin = Cursor.ofText text
  size_eq : stream.size = Text.byteLength text

/-- Wherever the buffered tokens of a text end, lexing goes on there. -/
theorem Reads.cursorAt_isIn {text : List Char} (h : stream.Reads text)
    {count : Nat} (hcount : count ≤ stream.buffer.size) :
    (stream.cursorAt count).IsIn text ∧
      stream.stopAt count = (stream.cursorAt count).offset := by
  induction count with
  | zero =>
      have hcursor : stream.cursorAt 0 = Cursor.ofText text := h.origin_eq
      rw [hcursor]
      exact ⟨Cursor.isIn_ofText text, rfl⟩
  | succ count ih =>
      have hnext : stream.buffer[count]? = some stream.buffer[count] :=
        Array.getElem?_eq_getElem hcount
      have hlexed := h.lexes.lexed count _ (Nat.zero_le count) hnext
      rw [cursorAt_succ hnext, stopAt_succ hnext, hlexed]
      exact ⟨(ih (Nat.le_of_succ_le hcount)).1.lexToken _, stop_lexToken _ _⟩

/-- The place behind the consumed tokens is given by where the last of them
ends. -/
theorem Reads.cursorAt_consumed {text : List Char} (h : stream.Reads text) :
    stream.cursorAt stream.consumed =
      ⟨stream.lastEnd, Text.dropBytes stream.lastEnd text⟩ := by
  obtain ⟨hisIn, hstop⟩ := h.cursorAt_isIn h.lexes.consumed_le
  rw [lastEnd_eq_stopAt, hstop]
  exact hisIn.eq_dropBytes

end TokenStream

end Bundler
