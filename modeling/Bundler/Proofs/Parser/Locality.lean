import Bundler.Proofs.Parser.Discipline
import Bundler.Proofs.Parser.Stream

/-!
# Parsers are local

What a disciplined parser does depends on where the last consumed token ends and
on the text behind it, and on nothing else: not on the tokens in front, not on
what happens to be buffered ahead, and not on the comments collected so far.
Two streams that are alike in this respect are taken in lockstep, by induction
on how the parser is put together.
-/

namespace Bundler

namespace TokenStream

variable {base base' count : Nat} {stream stream' : TokenStream}

/-- Two streams have each consumed some tokens of their own, which end at the
same place of the same source, and then the same `count` tokens. -/
structure Alike (base base' count : Nat) (stream stream' : TokenStream) :
    Prop where
  left : stream.Lexes base
  right : stream'.Lexes base'
  size_eq : stream.size = stream'.size
  consumed_left : stream.consumed = base + count
  consumed_right : stream'.consumed = base' + count
  stop_eq : stream.stopAt base = stream'.stopAt base'
  cursor_eq : stream.cursorAt base = stream'.cursorAt base'
  read_eq : ∀ index < count,
    stream.buffer[base + index]? = stream'.buffer[base' + index]?

/-- Two streams hold the same token at their indices. -/
def Share (index index' : Nat) (stream stream' : TokenStream) : Prop :=
  ∃ next, stream.buffer[index]? = some next ∧
    stream'.buffer[index']? = some next

namespace Alike

theorem size_le (h : Alike base base' count stream stream') :
    base + count ≤ stream.buffer.size ∧
      base' + count ≤ stream'.buffer.size := by
  rw [← h.consumed_left, ← h.consumed_right]
  exact ⟨h.left.consumed_le, h.right.consumed_le⟩

theorem share (h : Alike base base' count stream stream') {index : Nat}
    (hindex : index < count) :
    Share (base + index) (base' + index) stream stream' := by
  have hlt : base + index < stream.buffer.size :=
    Nat.lt_of_lt_of_le (Nat.add_lt_add_left hindex base) h.size_le.1
  have hleft : stream.buffer[base + index]? =
      some stream.buffer[base + index] := Array.getElem?_eq_getElem hlt
  exact ⟨_, hleft, (h.read_eq index hindex).symm.trans hleft⟩

theorem stopAt_eq (h : Alike base base' count stream stream') :
    stream.stopAt (base + count) = stream'.stopAt (base' + count) := by
  cases count with
  | zero => exact h.stop_eq
  | succ count =>
      obtain ⟨next, hleft, hright⟩ := h.share (Nat.lt_succ_self count)
      rw [← Nat.add_assoc, ← Nat.add_assoc, stopAt_succ hleft,
        stopAt_succ hright]

theorem cursorAt_eq (h : Alike base base' count stream stream') :
    stream.cursorAt (base + count) = stream'.cursorAt (base' + count) := by
  cases count with
  | zero => exact h.cursor_eq
  | succ count =>
      obtain ⟨next, hleft, hright⟩ := h.share (Nat.lt_succ_self count)
      rw [← Nat.add_assoc, ← Nat.add_assoc, cursorAt_succ hleft,
        cursorAt_succ hright]

theorem lastEnd_eq (h : Alike base base' count stream stream') :
    stream.lastEnd = stream'.lastEnd := by
  rw [lastEnd_eq_stopAt, lastEnd_eq_stopAt, h.consumed_left,
    h.consumed_right, h.stopAt_eq]

/-- Both streams go back by the same number of tokens. -/
theorem restore (h : Alike base base' count stream stream') {earlier : Nat}
    (hle : earlier ≤ count) :
    Alike base base' earlier (stream.restore ⟨base + earlier⟩)
      (stream'.restore ⟨base' + earlier⟩) := by
  have hleft : base + earlier ≤ stream.buffer.size :=
    Nat.le_trans (Nat.add_le_add_left hle base) h.size_le.1
  have hright : base' + earlier ≤ stream'.buffer.size :=
    Nat.le_trans (Nat.add_le_add_left hle base') h.size_le.2
  exact
    { left := ⟨Nat.le_add_right base earlier, hleft, h.left.cursor_eq,
        h.left.lexed⟩
      right := ⟨Nat.le_add_right base' earlier, hright, h.right.cursor_eq,
        h.right.lexed⟩
      size_eq := h.size_eq
      consumed_left := rfl
      consumed_right := rfl
      stop_eq := h.stop_eq
      cursor_eq := h.cursor_eq
      read_eq := fun index hindex =>
        h.read_eq index (Nat.lt_of_lt_of_le hindex hle) }

/-- Both streams find the same next token. -/
theorem prepare (h : Alike base base' count stream stream') (mode : LexMode) :
    Alike base base' count (stream.prepare mode) (stream'.prepare mode) ∧
      Share (base + count) (base' + count) (stream.prepare mode)
        (stream'.prepare mode) := by
  have hkept : ∀ index < base,
      (stream.prepare mode).buffer[index]? = stream.buffer[index]? :=
    fun index hindex => h.left.getElem?_prepare mode
      (Nat.lt_of_lt_of_le hindex h.left.base_le)
  have hkept' : ∀ index < base',
      (stream'.prepare mode).buffer[index]? = stream'.buffer[index]? :=
    fun index hindex => h.right.getElem?_prepare mode
      (Nat.lt_of_lt_of_le hindex h.right.base_le)
  have hnext := h.left.getElem?_prepare_consumed mode
  have hnext' := h.right.getElem?_prepare_consumed mode
  rw [h.consumed_left] at hnext
  rw [h.consumed_right, ← h.cursorAt_eq] at hnext'
  refine ⟨⟨h.left.prepare mode, h.right.prepare mode, ?_, ?_, ?_, ?_, ?_, ?_⟩,
    _, hnext, hnext'⟩
  · rw [size_prepare, size_prepare, h.size_eq]
  · rw [consumed_prepare, h.consumed_left]
  · rw [consumed_prepare, h.consumed_right]
  · rw [stopAt_congr hkept, stopAt_congr hkept', h.stop_eq]
  · rw [cursorAt_congr (origin_prepare mode stream) hkept,
      cursorAt_congr (origin_prepare mode stream') hkept', h.cursor_eq]
  · intro index hindex
    rw [h.left.getElem?_prepare mode (by rw [h.consumed_left]; omega),
      h.right.getElem?_prepare mode (by rw [h.consumed_right]; omega),
      h.read_eq index hindex]

/-- Both streams consume the next token. -/
theorem advance (h : Alike base base' count stream stream')
    (hshare : Share (base + count) (base' + count) stream stream') :
    Alike base base' (count + 1) stream.advance stream'.advance := by
  obtain ⟨next, hnext, hnext'⟩ := hshare
  have hlt : base + count < stream.buffer.size :=
    (Array.getElem?_eq_some_iff.mp hnext).1
  have hlt' : base' + count < stream'.buffer.size :=
    (Array.getElem?_eq_some_iff.mp hnext').1
  have hconsumed : stream.advance.consumed = base + (count + 1) := by
    rw [TokenStream.advance, h.consumed_left, Nat.add_assoc]
  have hconsumed' : stream'.advance.consumed = base' + (count + 1) := by
    rw [TokenStream.advance, h.consumed_right, Nat.add_assoc]
  exact
    { left := ⟨Nat.le_succ_of_le h.left.base_le, hconsumed ▸ hlt,
        h.left.cursor_eq, h.left.lexed⟩
      right := ⟨Nat.le_succ_of_le h.right.base_le, hconsumed' ▸ hlt',
        h.right.cursor_eq, h.right.lexed⟩
      size_eq := h.size_eq
      consumed_left := hconsumed
      consumed_right := hconsumed'
      stop_eq := h.stop_eq
      cursor_eq := h.cursor_eq
      read_eq := by
        intro index hindex
        by_cases heq : index = count
        · exact heq ▸ hnext.trans hnext'.symm
        · exact h.read_eq index (by omega) }

theorem upcoming_eq (h : Alike base base' count stream stream')
    (hshare : Share (base + count) (base' + count) stream stream') :
    stream.upcoming = stream'.upcoming := by
  obtain ⟨next, hnext, hnext'⟩ := hshare
  rw [upcoming, upcoming, h.consumed_left, h.consumed_right, hnext, hnext']

theorem spanSince_eq (h : Alike base base' count stream stream')
    {earlier : Nat} (hle : earlier ≤ count)
    (hshare : Share (base + earlier) (base' + earlier) stream stream') :
    stream.spanSince ⟨base + earlier⟩ =
      stream'.spanSince ⟨base' + earlier⟩ := by
  obtain ⟨next, hnext, hnext'⟩ := hshare
  simp only [spanSince, hnext, hnext', h.consumed_left, h.consumed_right,
    h.lastEnd_eq, Option.map_some, Option.getD_some]
  by_cases heq : count = earlier
  · rw [if_pos (by omega), if_pos (by omega)]
  · rw [if_neg (by omega), if_neg (by omega)]

end Alike

end TokenStream

namespace Parser

open TokenStream

variable {α β : Type} {base base' count : Nat} {held : Prop} {looks : Bool}
  {stream stream' after after' : TokenStream} {parser : Parser α}

/-- Two runs from streams with `count` common tokens come out alike: they yield
the same value or fail in the same way, and they have gone on by the same
tokens.  The next token at their start is common in the end if it has been
looked at or was `held` in common before. -/
inductive Agree {α : Type} (base base' count : Nat) (held : Prop)
    (looks : Bool) : EStateM.Result ParseFailure TokenStream α →
      EStateM.Result ParseFailure TokenStream α → Prop
  | ok {later : Nat} {after after' : TokenStream} (value : α) :
      count ≤ later → Alike base base' later after after' →
      (looks = true ∨ held →
        Share (base + count) (base' + count) after after') →
      Agree base base' count held looks (.ok value after) (.ok value after')
  | error {later : Nat} {after after' : TokenStream}
      (failure : ParseFailure) :
      count ≤ later → Alike base base' later after after' →
      (held → Share (base + count) (base' + count) after after') →
      Agree base base' count held looks (.error failure after)
        (.error failure after')

theorem Agree.weaken {result result' : EStateM.Result ParseFailure TokenStream α}
    (h : Agree base base' count held true result result') :
    Agree base base' count held looks result result' := by
  cases h with
  | ok value hle halike hshare =>
      exact .ok value hle halike fun _ => hshare (.inl rfl)
  | error failure hle halike hshare => exact .error failure hle halike hshare

/-- Runs that go on from where others ended come out alike if these did. -/
theorem Agree.resume {later : Nat} {second : Bool}
    {result result' : EStateM.Result ParseFailure TokenStream α}
    (h : Agree base base' later
      (Share (base + later) (base' + later) stream stream') second
      result result')
    (hle : count ≤ later)
    (hlooks : looks = true ∨ held →
      Share (base + count) (base' + count) stream stream')
    (hheld : held → Share (base + count) (base' + count) stream stream') :
    Agree base base' count held looks result result' := by
  -- A token that only the start has in common stays so, since what follows
  -- either keeps that place or has consumed it.
  cases h with
  | @ok last after after' value hlast halike hshare =>
      refine .ok value (Nat.le_trans hle hlast) halike fun hlooked => ?_
      by_cases heq : later = count
      · subst heq
        exact hshare (.inr (hlooks hlooked))
      · exact halike.share (by omega)
  | @error last after after' failure hlast halike hshare =>
      refine .error failure (Nat.le_trans hle hlast) halike fun hstart => ?_
      by_cases heq : later = count
      · subst heq
        exact hshare (hheld hstart)
      · exact halike.share (by omega)

theorem Agree.bind {next : α → Parser β}
    (h : Agree base base' count held looks (parser stream) (parser stream'))
    (hnext : ∀ value later after after', Alike base base' later after after' →
      Agree base base' later (Share (base + later) (base' + later) after after')
        false (next value after) (next value after')) :
    Agree base base' count held looks ((parser >>= next) stream)
      ((parser >>= next) stream') := by
  generalize hrun : parser stream = result, hrun' : parser stream' = result'
    at h
  cases h with
  | error failure hle halike hshare =>
      rw [Outcome.bind_of_error hrun, Outcome.bind_of_error hrun']
      exact .error failure hle halike hshare
  | @ok later after after' value hle halike hshare =>
      rw [Outcome.bind_of_ok hrun, Outcome.bind_of_ok hrun']
      exact (hnext value later after after' halike).resume hle hshare
        fun hheld => hshare (.inr hheld)

/-! ### Locality -/

theorem agree_forward (h : Alike base base' count stream stream')
    (mode : LexMode) (keep : Token → Bool) :
    Agree base base' count held looks (forward mode keep stream)
      (forward mode keep stream') := by
  obtain ⟨hprepared, hshare⟩ := h.prepare mode
  rw [forward_eq, forward_eq]
  simp only [TokenStream.forward, hprepared.upcoming_eq hshare]
  by_cases hkeep : keep (stream'.prepare mode).upcoming = true
  · have hadvanced := hprepared.advance hshare
    rw [if_pos hkeep, if_pos hkeep]
    exact .ok _ (Nat.le_succ count) hadvanced fun _ =>
      hadvanced.share (Nat.lt_succ_self count)
  · rw [if_neg hkeep, if_neg hkeep]
    exact .ok _ (Nat.le_refl count) hprepared fun _ => hshare

/-- A disciplined parser takes streams that are alike in lockstep. -/
theorem Disciplined.agree (hparser : Disciplined looks parser)
    (h : Alike base base' count stream stream') :
    Agree base base' count
      (Share (base + count) (base' + count) stream stream') looks
      (parser stream) (parser stream') := by
  induction hparser generalizing stream stream' count with
  | pure value =>
      exact .ok value (Nat.le_refl count) h fun hlooked =>
        hlooked.resolve_left (by simp)
  | fail error => exact .error (.refused error) (Nat.le_refl count) h id
  | exhausted => exact .error .exhausted (Nat.le_refl count) h id
  | forward mode keep => exact agree_forward h mode keep
  | weaken _ ih => exact (ih h).weaken
  | bind _ _ ihFirst ihNext =>
      exact (ihFirst h).bind fun value later after after' => ihNext value
  | bindLooking _ _ ihFirst ihNext =>
      exact (ihFirst h).bind fun value later after after' => ihNext value
  | @attempt α parser _ ih =>
      have hagree := ih h
      rw [Parser.attempt, Parser.attempt]
      generalize parser stream = result, parser stream' = result' at hagree
      cases hagree with
      | ok value hle halike hshare => exact .ok _ hle halike hshare
      | error failure hle halike hshare =>
          cases failure with
          | refused error =>
              exact .ok _ hle halike fun hlooked =>
                hshare (hlooked.resolve_left (by simp))
          | exhausted => exact .error .exhausted hle halike hshare
  | @rewinding α β looks parser next back _ _ ihFirst ihNext =>
      have hagree := ihFirst h
      generalize hrun : parser stream = result,
        hrun' : parser stream' = result' at hagree
      cases hagree with
      | error failure hle halike hshare =>
          rw [rewinding_of_error hrun, rewinding_of_error hrun']
          exact .error failure hle halike hshare
      | @ok later after after' value hle halike hshare =>
          have hheld := fun hheld => hshare (.inr hheld)
          rw [rewinding_of_ok hrun, rewinding_of_ok hrun',
            TokenStream.checkpoint, TokenStream.checkpoint, h.consumed_left,
            h.consumed_right]
          by_cases hback : back value = true
          · rw [if_pos hback, if_pos hback]
            exact (ihNext value (halike.restore hle)).resume
              (Nat.le_refl count) hshare hheld
          · rw [if_neg hback, if_neg hback]
            exact (ihNext value halike).resume hle hshare hheld
  | @position α looks f _ ih =>
      change Agree base base' count _ _
        (f stream.lastEnd stream.size stream)
        (f stream'.lastEnd stream'.size stream')
      rw [h.lastEnd_eq, h.size_eq]
      exact ih stream'.lastEnd stream'.size h
  | @withSpan α looks parser _ ih =>
      have hagree := ih h
      generalize hrun : parser stream = result,
        hrun' : parser stream' = result' at hagree
      cases hagree with
      | error failure hle halike hshare =>
          rw [withSpan_of_error hrun, withSpan_of_error hrun']
          exact .error failure hle halike hshare
      | @ok later after after' value hle halike hshare =>
          have hspan := halike.spanSince_eq hle (hshare (.inl rfl))
          rw [withSpan_of_ok hrun, withSpan_of_ok hrun',
            TokenStream.checkpoint, TokenStream.checkpoint, h.consumed_left,
            h.consumed_right, hspan]
          exact .ok _ hle halike fun _ => hshare (.inl rfl)

end Parser

namespace TokenStream

variable {text : List Char} {stream after : TokenStream}

/-- A stream of a text whose consumed tokens end at an offset. -/
def behind (text : List Char) (stop : Nat) : TokenStream :=
  let cursor : Cursor := ⟨stop, Text.dropBytes stop text⟩
  { origin := cursor
    size := Text.byteLength text
    cursor := cursor
    comments := []
    buffer := #[⟨⟨.endOfInput, .point stop, "", false⟩, .standard, cursor⟩]
    consumed := 1 }

theorem lexes_behind (text : List Char) (stop : Nat) :
    (behind text stop).Lexes 1 := by
  refine ⟨Nat.le_refl 1, Nat.le_refl 1, rfl, ?_⟩
  intro index next hbase hnext
  have hindex : index < 1 := (Array.getElem?_eq_some_iff.mp hnext).1
  omega

/-- A stream that reads a text is alike to one that starts where its last token
ends. -/
theorem Reads.alike_behind (h : stream.Reads text) :
    Alike stream.consumed 1 0 stream (behind text stream.lastEnd) where
  left := ⟨Nat.le_refl _, h.lexes.consumed_le, h.lexes.cursor_eq,
    fun index next _ hnext =>
      h.lexes.lexed index next (Nat.zero_le index) hnext⟩
  right := lexes_behind text stream.lastEnd
  size_eq := h.size_eq
  consumed_left := rfl
  consumed_right := rfl
  stop_eq := rfl
  cursor_eq := h.cursorAt_consumed
  read_eq := fun index hindex => absurd hindex (Nat.not_lt_zero index)

theorem origin_forward (mode : LexMode) (keep : Token → Bool)
    (stream : TokenStream) :
    (stream.forward mode keep).2.origin = stream.origin := by
  have horigin := origin_prepare mode stream
  rw [forward]
  dsimp only
  split
  · exact horigin
  · exact horigin

theorem size_forward (mode : LexMode) (keep : Token → Bool)
    (stream : TokenStream) :
    (stream.forward mode keep).2.size = stream.size := by
  have hsize := size_prepare mode stream
  rw [forward]
  dsimp only
  split
  · exact hsize
  · exact hsize

end TokenStream

namespace Parser

open TokenStream

variable {α : Type} {looks : Bool} {parser : Parser α} {value : α}
  {text : List Char} {stream after : TokenStream}

/-- Disciplined parsers go on, even if they fail: what has been consumed stays
so. -/
theorem Disciplined.leads_leaves {base : Nat} (h : Disciplined looks parser)
    (hstream : stream.Lexes base) :
    (leaves parser stream).Lexes base ∧
      Leads base stream (leaves parser stream) :=
  h.relates
    (fun stream after => stream.Lexes base →
      after.Lexes base ∧ Leads base stream after)
    (fun _ hlexes => ⟨hlexes, .refl _⟩)
    (fun hfirst hsecond hlexes =>
      have hbetween := hfirst hlexes
      have hafter := hsecond hbetween.1
      ⟨hafter.1, hbetween.2.trans hafter.2⟩)
    (fun mode keep _ hlexes => hlexes.forward mode keep)
    (fun hafter hlexes =>
      hlexes.restore (hafter hlexes).1 (hafter hlexes).2) stream hstream

theorem Disciplined.leads {base : Nat} (h : Disciplined looks parser)
    (hstream : stream.Lexes base) (hrun : parser stream = .ok value after) :
    after.Lexes base ∧ Leads base stream after := by
  have hleaves := h.leads_leaves hstream
  rwa [leaves_of_ok hrun] at hleaves

/-- Disciplined parsers go on reading the same text. -/
theorem Disciplined.reads_leaves (h : Disciplined looks parser)
    (hstream : stream.Reads text) : (leaves parser stream).Reads text := by
  have hkept := h.keeps
    (fun after => after.origin = stream.origin ∧ after.size = stream.size)
    (fun mode keep between hbetween =>
      ⟨(origin_forward mode keep between).trans hbetween.1,
        (size_forward mode keep between).trans hbetween.2⟩)
    (fun start between hbetween => hbetween) ⟨rfl, rfl⟩
  exact ⟨(h.leads_leaves hstream.lexes).1, hkept.1.trans hstream.origin_eq,
    hkept.2.trans hstream.size_eq⟩

theorem Disciplined.reads (h : Disciplined looks parser)
    (hstream : stream.Reads text) (hrun : parser stream = .ok value after) :
    after.Reads text := by
  have hleaves := h.reads_leaves hstream
  rwa [leaves_of_ok hrun] at hleaves

/-- What a parser yields behind an offset of a text. -/
def readBehind (parser : Parser α) (text : List Char) (stop : Nat) :
    Option α :=
  match parser (behind text stop) with
  | .ok value _ => some value
  | .error _ _ => none

/-- What a disciplined parser yields is decided by where the last token in front
of it ends. -/
theorem Disciplined.readBehind_eq_some_iff (h : Disciplined looks parser)
    (hstream : stream.Reads text) :
    readBehind parser text stream.lastEnd = some value ↔
      ∃ after, parser stream = .ok value after := by
  have hagree := h.agree hstream.alike_behind
  rw [readBehind]
  generalize parser stream = result,
    parser (behind text stream.lastEnd) = result' at hagree
  cases hagree with
  | ok found hle halike hshare => simp
  | error failure hle halike hshare => simp

end Parser

end Bundler
