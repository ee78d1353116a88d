import Bundler.Proofs.Lexer.Gaps
import Bundler.Proofs.Lexer.Sequence
import Bundler.Proofs.Parser.Locality

/-!
# Where tokens are

Consumed tokens are pieces of the text, and stand where the stream says they
do: what is consumed later stands behind, and the range of what is consumed
since some place is that from the first of these tokens to the last.
-/

namespace Bundler

namespace TokenStream

variable {base : Nat} {text : List Char} {stream after : TokenStream}
  {token : Token}

/-- One of the consumed tokens is a part of a template that goes on. -/
def HasPart (stream : TokenStream) : Prop :=
  ∃ token, Consumes 0 stream token ∧ token.kind = .templatePart

theorem Consumes.mono {later : Nat} (h : Consumes later stream token)
    (hle : base ≤ later) : Consumes base stream token := by
  obtain ⟨index, next, hindex, hlt, hnext, htoken⟩ := h
  exact ⟨index, next, Nat.le_trans hle hindex, hlt, hnext, htoken⟩

/-- A consumed token stays consumed. -/
theorem Consumes.leads {first : Nat} (h : Consumes first stream token)
    (hbase : base ≤ first) (hleads : Leads base stream after) :
    Consumes first after token := by
  obtain ⟨index, next, hindex, hlt, hnext, htoken⟩ := h
  refine ⟨index, next, hindex, Nat.lt_of_lt_of_le hlt hleads.consumed_le, ?_,
    htoken⟩
  rw [← hleads.read_eq index (Nat.le_trans hbase hindex) hlt, hnext]

/-- A part of a template stays consumed. -/
theorem HasPart.leads (h : stream.HasPart) (hleads : Leads 0 stream after) :
    after.HasPart := by
  obtain ⟨token, htoken, hkind⟩ := h
  exact ⟨token, htoken.leads (Nat.le_refl 0) hleads, hkind⟩

theorem Lexes.above {later : Nat} (h : stream.Lexes base)
    (hle : base ≤ later) (hlater : later ≤ stream.consumed) :
    stream.Lexes later :=
  ⟨hlater, h.consumed_le, h.cursor_eq, fun index next hindex =>
    h.lexed index next (Nat.le_trans hle hindex)⟩

/-- Consumed tokens are pieces of the text that is read. -/
theorem Reads.isIn_of_consumes (h : stream.Reads text)
    (htoken : Consumes base stream token) : token.IsIn text := by
  obtain ⟨index, next, _, hlt, hnext, rfl⟩ := htoken
  have hlexed := h.lexes.lexed index next (Nat.zero_le index) hnext
  have hcursor := (h.cursorAt_isIn
    (Nat.le_of_lt (Nat.lt_of_lt_of_le hlt h.lexes.consumed_le))).1
  rw [hlexed]
  exact hcursor.token _

/-- A token that is consumed next is the last one. -/
theorem Lexes.lastEnd_advance (h : stream.Lexes base) (mode : LexMode) :
    (stream.prepare mode).advance.lastEnd =
      (stream.prepare mode).upcoming.span.stop := by
  have hnext := h.getElem?_prepare_consumed mode
  rw [h.upcoming_prepare, lastEnd_eq_stopAt, advance, consumed_prepare]
  exact stopAt_succ hnext

/-- The token that has been looked at is consumed next. -/
theorem Lexes.consumes_advance (h : stream.Lexes base) (mode : LexMode) :
    Consumes stream.consumed (stream.prepare mode).advance
      (stream.prepare mode).upcoming := by
  refine ⟨stream.consumed, _, Nat.le_refl _, ?_,
    h.getElem?_prepare_consumed mode, (h.upcoming_prepare mode).symm⟩
  exact Nat.lt_succ_of_le (Nat.le_of_eq (consumed_prepare mode stream).symm)

/-- The next token is a piece of the text that is read. -/
theorem Reads.isIn_upcoming (h : stream.Reads text) (mode : LexMode) :
    (stream.prepare mode).upcoming.IsIn text := by
  rw [h.lexes.upcoming_prepare]
  exact (h.cursorAt_isIn h.lexes.consumed_le).1.token mode

/-- Lexing goes on in the text. -/
theorem Reads.cursor_isIn (h : stream.Reads text) :
    stream.cursor.IsIn text := by
  rw [h.lexes.cursor_eq]
  exact (h.cursorAt_isIn (Nat.le_refl _)).1

theorem Reads.lastEnd_eq_offset (h : stream.Reads text) :
    stream.lastEnd = (stream.cursorAt stream.consumed).offset := by
  rw [lastEnd_eq_stopAt]
  exact (h.cursorAt_isIn h.lexes.consumed_le).2

/-- The end of the last consumed token is a place in the text. -/
theorem Reads.isBoundary_lastEnd (h : stream.Reads text) :
    Text.IsBoundary text stream.lastEnd := by
  obtain ⟨front, htext, hoffset⟩ := (h.cursorAt_isIn h.lexes.consumed_le).1
  exact ⟨front, _, htext, h.lastEnd_eq_offset.trans hoffset⟩

/-- What has been consumed ends where it ended before. -/
theorem Leads.cursorAt_eq (hstream : stream.Reads text)
    (hafter : after.Reads text) (hleads : Leads 0 stream after) :
    after.cursorAt stream.consumed = stream.cursorAt stream.consumed :=
  cursorAt_congr (hafter.origin_eq.trans hstream.origin_eq.symm)
    fun index hindex =>
      (hleads.read_eq index (Nat.zero_le index) hindex).symm

/-- What is consumed from some place on stands behind what had been consumed. -/
theorem Reads.lastEnd_le_start (hstream : stream.Reads text)
    (hafter : after.Reads text) (hleads : Leads 0 stream after)
    (htoken : Consumes stream.consumed after token) :
    stream.lastEnd ≤ token.span.start := by
  obtain ⟨index, next, hindex, hlt, hnext, rfl⟩ := htoken
  have hsize : index ≤ after.buffer.size :=
    Nat.le_of_lt (Nat.lt_of_lt_of_le hlt hafter.lexes.consumed_le)
  calc stream.lastEnd
      = (after.cursorAt stream.consumed).offset := by
        rw [hleads.cursorAt_eq hstream hafter, hstream.lastEnd_eq_offset]
    _ ≤ (after.cursorAt index).offset :=
        hafter.lexes.offset_mono (Nat.zero_le _) hindex hsize
    _ ≤ next.token.span.start :=
        (hafter.lexes.offset_le_span (Nat.zero_le _) hnext).1

/-- What is consumed ends at the end of the last consumed token. -/
theorem Reads.stop_le_lastEnd (h : stream.Reads text)
    (htoken : Consumes base stream token) :
    token.span.stop ≤ stream.lastEnd := by
  obtain ⟨index, next, _, hlt, hnext, rfl⟩ := htoken
  calc next.token.span.stop
      = (stream.cursorAt (index + 1)).offset :=
        (h.lexes.offset_le_span (Nat.zero_le _) hnext).2.2
    _ ≤ (stream.cursorAt stream.consumed).offset :=
        h.lexes.offset_mono (Nat.zero_le _) hlt h.lexes.consumed_le
    _ = stream.lastEnd := h.lastEnd_eq_offset.symm

theorem Reads.lastEnd_le (hstream : stream.Reads text)
    (hafter : after.Reads text) (hleads : Leads 0 stream after) :
    stream.lastEnd ≤ after.lastEnd := by
  rw [hstream.lastEnd_eq_offset, hafter.lastEnd_eq_offset,
    ← hleads.cursorAt_eq hstream hafter]
  exact hafter.lexes.offset_mono (Nat.zero_le _) hleads.consumed_le
    hafter.lexes.consumed_le

/-- The range of some tokens is from the first to the last of them. -/
theorem Lexes.exists_spanSince (h : stream.Lexes base)
    (hlt : base < stream.consumed) :
    ∃ head tail, Consumes base stream head ∧ Consumes base stream tail ∧
      stream.spanSince ⟨base⟩ = ⟨head.span.start, tail.span.stop⟩ ∧
      tail.span.stop = stream.lastEnd := by
  obtain ⟨head, hhead⟩ := h.exists_consumed hlt
  obtain ⟨tail, htail, hstop⟩ := h.exists_last hlt
  refine ⟨_, _, ⟨base, head, Nat.le_refl base, hlt, hhead, rfl⟩,
    ⟨stream.consumed - 1, tail, Nat.le_sub_one_of_lt hlt,
      Nat.sub_one_lt (Nat.ne_of_gt (Nat.zero_lt_of_lt hlt)), htail, rfl⟩,
    ?_, hstop.symm⟩
  rw [spanSince_of_lt hlt hhead, hstop]

theorem Reads.isIn_spanSince (h : stream.Reads text)
    (hlt : base < stream.consumed) : (stream.spanSince ⟨base⟩).IsIn text := by
  have hlexes := h.lexes.above (Nat.zero_le base) (Nat.le_of_lt hlt)
  obtain ⟨head, tail, hhead, htail, hspan, _⟩ := hlexes.exists_spanSince hlt
  have hencloses := hlexes.spanSince_encloses htail
  have hheadIn := (h.isIn_of_consumes hhead).span
  have htailIn := (h.isIn_of_consumes htail).span
  rw [hspan] at hencloses ⊢
  exact ⟨hheadIn.1, htailIn.2.1, Nat.le_trans hencloses.1 htailIn.2.2⟩

/-- A consumed token takes up text, unless it is none. -/
theorem Reads.start_lt_stop (h : stream.Reads text)
    (htoken : Consumes base stream token) (hend : token.kind ≠ .endOfInput)
    (hinvalid : token.kind ≠ .invalid) : token.span.start < token.span.stop := by
  obtain ⟨index, next, _, hlt, hnext, rfl⟩ := htoken
  have hlexed := h.lexes.lexed index next (Nat.zero_le index) hnext
  have hcursor := (h.cursorAt_isIn
    (Nat.le_of_lt (Nat.lt_of_lt_of_le hlt h.lexes.consumed_le))).1
  have hempty := (hcursor.isBehind next.mode).isEmpty
  rw [hlexed] at hend hinvalid ⊢
  by_contra hle
  rcases hempty (decide_eq_true (Nat.le_of_not_lt hle)) with hkind | hkind
  · exact hend hkind
  · exact hinvalid hkind

end TokenStream

end Bundler
