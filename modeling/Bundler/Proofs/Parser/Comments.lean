import Bundler.Proofs.Lexer.Comments
import Bundler.Proofs.Parser.Locations

/-!
# Comments of a source

Comments are recorded wherever tokens are looked at, also where another mode
finds other tokens there in the end.  So what is recorded is in order and
written as a comment, but it need not stand in front of a token: text inside of
a template or a regular expression may be recorded as well.  This cannot happen
as long as all modes find the same tokens.
-/

namespace Bundler

open Bundler.Parser

variable {text : List Char}

namespace TokenStream

variable {last stream : TokenStream} {count : Nat}

/-- The comments in front of a buffered token, as its mode finds them. -/
def commentsAt (stream : TokenStream) (index : Nat) : List Comment :=
  match stream.buffer[index]? with
  | some next => (lexToken next.mode (stream.cursorAt index)).comments
  | none => []

/-- The comments in front of the first `count` buffered tokens. -/
def commentsUpTo (stream : TokenStream) (count : Nat) : List Comment :=
  (List.range count).flatMap stream.commentsAt

theorem commentsAt_of_some {index : Nat} {next : BufferedToken}
    (hnext : stream.buffer[index]? = some next) :
    stream.commentsAt index =
      (lexToken next.mode (stream.cursorAt index)).comments := by
  rw [commentsAt, hnext]

theorem exists_next_of_mem_commentsAt {index : Nat} {comment : Comment}
    (hmem : comment ∈ stream.commentsAt index) :
    ∃ next, stream.buffer[index]? = some next := by
  rw [commentsAt] at hmem
  split at hmem
  · exact ⟨_, ‹_›⟩
  · exact absurd hmem List.not_mem_nil

theorem commentsUpTo_succ (stream : TokenStream) (count : Nat) :
    stream.commentsUpTo (count + 1) =
      stream.commentsUpTo count ++ stream.commentsAt count := by
  rw [commentsUpTo, List.range_succ, List.flatMap_append,
    List.flatMap_singleton]
  rfl

theorem commentsAt_congr {other : TokenStream} {index : Nat}
    (horigin : stream.origin = other.origin)
    (hbuffer : ∀ earlier ≤ index,
      stream.buffer[earlier]? = other.buffer[earlier]?) :
    stream.commentsAt index = other.commentsAt index := by
  have hcursor : stream.cursorAt index = other.cursorAt index :=
    cursorAt_congr horigin fun earlier hlt => hbuffer earlier (Nat.le_of_lt hlt)
  rw [commentsAt, commentsAt, hbuffer index (Nat.le_refl _), hcursor]

/-- A token stands behind a gap, and its comments are those of the gap. -/
theorem Reads.gap_commentsAt (h : stream.Reads text) {index : Nat}
    {next : BufferedToken} (hnext : stream.buffer[index]? = some next) :
    IsGap text (stream.cursorAt index).offset next.token.span.start
      (stream.commentsAt index) := by
  have hsize := (Array.getElem?_eq_some_iff.mp hnext).1
  have hlexed := h.lexes.lexed index next (Nat.zero_le _) hnext
  have hcursor := (h.cursorAt_isIn (Nat.le_of_lt hsize)).1
  have hgap := hcursor.gap next.mode
  rw [commentsAt_of_some hnext]
  rw [hlexed]
  exact hgap

theorem Reads.start_of_mem_commentsUpTo (h : stream.Reads text)
    (hcount : count ≤ stream.buffer.size) :
    ∀ comment ∈ stream.commentsUpTo count,
      comment.span.start < (stream.cursorAt count).offset := by
  intro comment hmem
  obtain ⟨index, hindex, hmem⟩ := List.mem_flatMap.mp hmem
  have hlt := List.mem_range.mp hindex
  obtain ⟨next, hnext⟩ := exists_next_of_mem_commentsAt hmem
  obtain ⟨_, hle, hstop⟩ := h.lexes.offset_le_span (Nat.zero_le _) hnext
  calc comment.span.start
      < next.token.span.start := ((h.gap_commentsAt hnext).start_of_mem hmem).2
    _ ≤ (stream.cursorAt (index + 1)).offset := by rwa [← hstop]
    _ ≤ (stream.cursorAt count).offset :=
        h.lexes.offset_mono (Nat.zero_le _) hlt hcount

theorem mem_commentsUpTo {index : Nat} (hindex : index < count)
    {comment : Comment} (hmem : comment ∈ stream.commentsAt index) :
    comment ∈ stream.commentsUpTo count :=
  List.mem_flatMap.mpr ⟨index, List.mem_range.mpr hindex, hmem⟩

/-- The comments in front of the next token come on top of those in front of the
tokens before it. -/
theorem Reads.recordComments_commentsAt (h : stream.Reads text)
    (hcount : count < stream.buffer.size) :
    recordComments (stream.commentsUpTo count).reverse
        (stream.commentsAt count) =
      (stream.commentsUpTo (count + 1)).reverse := by
  have hgap := h.gap_commentsAt (Array.getElem?_eq_getElem hcount)
  rw [commentsUpTo_succ, List.reverse_append]
  refine recordComments_of_lt hgap.pairwise fun comment hmem =>
    endsBefore_of_forall fun other hother => ?_
  have hbefore := h.start_of_mem_commentsUpTo (Nat.le_of_lt hcount) other
    (List.mem_reverse.mp hother)
  exact Nat.lt_of_lt_of_le hbefore (hgap.start_of_mem hmem).1

/-! ### Plain tokens -/

/-- The first `count` tokens are plain, and none of them is read inside of a
template. -/
def PlainUpTo (stream : TokenStream) (count : Nat) : Prop :=
  ∀ index < count, ∃ next, stream.buffer[index]? = some next ∧
    next.mode ≠ .templateContinue ∧ next.token.IsPlain

/-- One of the first tokens is a part of a template that goes on. -/
def HasPartBefore (stream : TokenStream) (index : Nat) : Prop :=
  ∃ earlier < index, ∃ part, stream.buffer[earlier]? = some part ∧
    part.token.kind = .templatePart

/-- Text inside of a template is lexed only behind a part of a template. -/
def PartsFirst (stream : TokenStream) : Prop :=
  ∀ index next, stream.buffer[index]? = some next →
    next.mode = .templateContinue → stream.HasPartBefore index

theorem HasPartBefore.congr {other : TokenStream} {index : Nat}
    (h : stream.HasPartBefore index)
    (hbuffer : ∀ earlier < index,
      other.buffer[earlier]? = stream.buffer[earlier]?) :
    other.HasPartBefore index := by
  obtain ⟨earlier, hlt, part, hpart, hkind⟩ := h
  exact ⟨earlier, hlt, part, (hbuffer earlier hlt).trans hpart, hkind⟩

/-- A plain token is found in every mode outside of templates, with the same
comments in front of it. -/
theorem PlainUpTo.found (hplain : last.PlainUpTo count)
    (hlast : last.Reads text) {index : Nat} (hindex : index < count)
    {mode : LexMode} (hmode : mode ≠ .templateContinue) :
    let lexed := lexToken mode (last.cursorAt index)
    lexed.token.IsPlain ∧ lexed.after = last.cursorAt (index + 1) ∧
      lexed.comments = last.commentsAt index := by
  obtain ⟨next, hnext, hother, hisPlain⟩ := hplain index hindex
  have hlexed := hlast.lexes.lexed index next (Nat.zero_le _) hnext
  have htoken : next.token =
      (lexToken next.mode (last.cursorAt index)).token := by
    rw [hlexed]
    rfl
  have hafter : next.after =
      (lexToken next.mode (last.cursorAt index)).after := by
    rw [hlexed]
    rfl
  rw [htoken] at hisPlain
  dsimp only
  rw [lexToken_eq_of_isPlain hother hmode hisPlain, cursorAt_succ hnext,
    commentsAt_of_some hnext, hafter]
  exact ⟨hisPlain, rfl, rfl⟩

/-- Whatever has been looked at on the way, plain tokens are found just where
they are found in the end. -/
theorem PlainUpTo.agree (hplain : last.PlainUpTo count)
    (hlast : last.Reads text) (hstream : stream.Reads text)
    (hparts : stream.PartsFirst) :
    ∀ index ≤ count, index ≤ stream.buffer.size →
      stream.cursorAt index = last.cursorAt index ∧
        ¬ stream.HasPartBefore index := by
  intro index
  induction index with
  | zero =>
      intro _ _
      refine ⟨hstream.origin_eq.trans hlast.origin_eq.symm, ?_⟩
      rintro ⟨earlier, hlt, _⟩
      exact Nat.not_lt_zero _ hlt
  | succ index ih =>
      intro hcount hsize
      obtain ⟨hcursor, hno⟩ :=
        ih (Nat.le_of_succ_le hcount) (Nat.le_of_succ_le hsize)
      have hnext : stream.buffer[index]? = some stream.buffer[index] :=
        Array.getElem?_eq_getElem hsize
      have hmode : stream.buffer[index].mode ≠ .templateContinue :=
        fun hmode => hno (hparts index _ hnext hmode)
      obtain ⟨hisPlain, hafter, _⟩ := hplain.found hlast hcount hmode
      have hlexed := hstream.lexes.lexed index _ (Nat.zero_le _) hnext
      rw [hcursor] at hlexed
      refine ⟨?_, ?_⟩
      · rw [cursorAt_succ hnext, hlexed]
        exact hafter
      · rintro ⟨earlier, hlt, part, hpart, hkind⟩
        rcases Nat.lt_succ_iff_lt_or_eq.mp hlt with hlt | rfl
        · exact hno ⟨earlier, hlt, part, hpart, hkind⟩
        · rw [hnext] at hpart
          obtain rfl := Option.some.inj hpart
          rw [hlexed] at hkind
          exact hisPlain.1 hkind

/-! ### Looking ahead -/

/-- One more token keeps what is known of each of its predecessors. -/
theorem getElem?_lexAhead_of_lt {mode : LexMode} {index : Nat}
    (hindex : index < stream.buffer.size) :
    (stream.lexAhead mode).buffer[index]? = stream.buffer[index]? := by
  rw [getElem?_lexAhead, if_neg (Nat.ne_of_lt hindex)]

theorem PartsFirst.lexAhead (h : stream.PartsFirst) {mode : LexMode}
    (hmode : mode = .templateContinue →
      stream.HasPartBefore stream.buffer.size) :
    (stream.lexAhead mode).PartsFirst := by
  intro index next hnext hnextMode
  rw [getElem?_lexAhead] at hnext
  split at hnext
  · rename_i hindex
    cases hnext
    rw [hindex]
    exact (hmode hnextMode).congr fun earlier hlt =>
      getElem?_lexAhead_of_lt hlt
  · have hlt := (Array.getElem?_eq_some_iff.mp hnext).1
    exact (h index next hnext hnextMode).congr fun earlier hearlier =>
      getElem?_lexAhead_of_lt (Nat.lt_trans hearlier hlt)

theorem commentsAt_lexAhead_of_lt {mode : LexMode} {index : Nat}
    (hindex : index < stream.buffer.size) :
    (stream.lexAhead mode).commentsAt index = stream.commentsAt index :=
  commentsAt_congr (by rfl) fun _ hle =>
    getElem?_lexAhead_of_lt (Nat.lt_of_le_of_lt hle hindex)

theorem commentsAt_lexAhead_size (hstream : stream.Reads text)
    (mode : LexMode) :
    (stream.lexAhead mode).commentsAt stream.buffer.size =
      (lexToken mode stream.cursor).comments := by
  have hnext : (stream.lexAhead mode).buffer[stream.buffer.size]? =
      some (lexAt mode stream.cursor) := by
    rw [getElem?_lexAhead, if_pos rfl]
  have hcursor : (stream.lexAhead mode).cursorAt stream.buffer.size =
      stream.cursorAt stream.buffer.size :=
    cursorAt_congr (by rfl) fun _ hlt => getElem?_lexAhead_of_lt hlt
  rw [commentsAt_of_some hnext, hcursor, ← hstream.lexes.cursor_eq]
  rfl

theorem PartsFirst.discardAhead (h : stream.PartsFirst) :
    stream.discardAhead.PartsFirst := by
  intro index next hnext hmode
  rw [getElem?_discardAhead] at hnext
  split at hnext
  · rename_i hindex
    refine (h index next hnext hmode).congr fun earlier hlt => ?_
    rw [getElem?_discardAhead, if_pos (Nat.lt_trans hlt hindex)]
  · cases hnext

/-- Of what is buffered ahead, the comments are forgotten as well. -/
theorem mem_commentsAt_of_discardAhead {index : Nat} {comment : Comment}
    (hmem : comment ∈ stream.discardAhead.commentsAt index) :
    comment ∈ stream.commentsAt index := by
  obtain ⟨next, hnext⟩ := exists_next_of_mem_commentsAt hmem
  rw [getElem?_discardAhead] at hnext
  split at hnext
  · rename_i hindex
    have hsame : stream.discardAhead.commentsAt index =
        stream.commentsAt index := by
      refine commentsAt_congr (by rfl) fun earlier hle => ?_
      rw [getElem?_discardAhead, if_pos (Nat.lt_of_le_of_lt hle hindex)]
    rwa [hsame] at hmem
  · cases hnext

/-! ### What is recorded -/

/-- Of what stands in front of the place behind the first `count` tokens, just
the comments in front of these tokens are recorded, as far as they have been
looked at. -/
inductive RecordsUpTo (last : TokenStream) (count : Nat)
    (stream : TokenStream) : Prop
  | within {recorded : Nat} (hlt : recorded < count)
      (hsize : stream.buffer.size ≤ recorded)
      (hcomments : stream.comments = (last.commentsUpTo recorded).reverse)
  | beyond {others : List Comment}
      (hcomments :
        stream.comments = others ++ (last.commentsUpTo count).reverse)
      (hothers : ∀ comment ∈ others,
        (last.cursorAt count).offset ≤ comment.span.start)

theorem RecordsUpTo.of_eq
    (h : stream.comments = (last.commentsUpTo count).reverse) :
    last.RecordsUpTo count stream :=
  @RecordsUpTo.beyond last count stream [] h nofun

/-- What is known of the comments that have been recorded, in view of the tokens
that are consumed in the end. -/
structure Records (text : List Char) (last stream : TokenStream) : Prop where
  partsFirst : stream.PartsFirst
  newestFirst : NewestFirst stream.comments
  written : ∀ comment ∈ stream.comments,
    IsGap text comment.span.start comment.span.stop [comment]
  reaches : ∀ index, ∀ comment ∈ stream.commentsAt index,
    ∃ other ∈ stream.comments, comment.span.start ≤ other.span.start
  upTo : ∀ count ≤ last.buffer.size, last.PlainUpTo count →
    last.RecordsUpTo count stream

namespace Records

theorem ofSource (text : List Char) (last : TokenStream) :
    Records text last (ofSource text) where
  partsFirst index next hnext := by cases hnext
  newestFirst := .nil
  written _ hmem := absurd hmem List.not_mem_nil
  reaches _ _ hmem := absurd hmem List.not_mem_nil
  upTo count _ _ := by
    rcases Nat.eq_zero_or_pos count with rfl | hpos
    · exact .of_eq rfl
    · exact .within hpos (Nat.zero_le _) rfl

/-- What is known does not depend on what is consumed. -/
theorem withConsumed (h : Records text last stream) (consumed : Nat) :
    Records text last { stream with consumed := consumed } where
  partsFirst := h.partsFirst
  newestFirst := h.newestFirst
  written := h.written
  reaches := h.reaches
  upTo count hcount hplain := by
    cases h.upTo count hcount hplain with
    | within hlt hsize hcomments => exact .within hlt hsize hcomments
    | beyond hcomments hothers => exact .beyond hcomments hothers

/-- Forgetting what is buffered ahead keeps what has been recorded. -/
theorem discardAhead (h : Records text last stream)
    (hstream : stream.Reads text) :
    Records text last stream.discardAhead where
  partsFirst := h.partsFirst.discardAhead
  newestFirst := h.newestFirst
  written := h.written
  reaches index comment hmem :=
    h.reaches index comment (mem_commentsAt_of_discardAhead hmem)
  upTo count hcount hplain := by
    cases h.upTo count hcount hplain with
    | within hlt hsize hcomments =>
        refine .within hlt ?_ hcomments
        rw [hstream.lexes.size_discardAhead]
        exact Nat.le_trans hstream.lexes.consumed_le hsize
    | beyond hcomments hothers => exact .beyond hcomments hothers

theorem reaches_lexAhead (h : Records text last stream)
    (hstream : stream.Reads text) (mode : LexMode) (index : Nat) :
    ∀ comment ∈ (stream.lexAhead mode).commentsAt index,
      ∃ other ∈ (stream.lexAhead mode).comments,
        comment.span.start ≤ other.span.start := by
  intro comment hmem
  obtain ⟨next, hnext⟩ := exists_next_of_mem_commentsAt hmem
  rw [getElem?_lexAhead] at hnext
  split at hnext
  · rename_i hindex
    rw [hindex, commentsAt_lexAhead_size hstream] at hmem
    exact exists_recorded stream.comments comment hmem
  · have hlt := (Array.getElem?_eq_some_iff.mp hnext).1
    rw [commentsAt_lexAhead_of_lt hlt] at hmem
    obtain ⟨other, hother, hle⟩ := h.reaches index comment hmem
    exact ⟨other, mem_recordComments_of_mem hother, hle⟩

theorem written_lexAhead (h : Records text last stream)
    (hstream : stream.Reads text) (mode : LexMode) :
    ∀ comment ∈ (stream.lexAhead mode).comments,
      IsGap text comment.span.start comment.span.stop [comment] := by
  obtain ⟨added, hadded, hfound⟩ := recordComments_append stream.comments
    (lexToken mode stream.cursor).comments
  have hcomments : (stream.lexAhead mode).comments =
      added ++ stream.comments := hadded
  rw [hcomments]
  exact List.forall_mem_append.mpr
    ⟨fun comment hmem =>
        (hstream.cursor_isIn.gap mode).of_mem (hfound comment hmem),
      h.written⟩

section Looking

variable {mode : LexMode}

/-- A token in front of which all tokens are plain has the comments in front of
it that it has in the end. -/
theorem comments_of_plain (h : Records text last stream)
    (hlast : last.Reads text) (hstream : stream.Reads text)
    (hmode : mode = .templateContinue →
      stream.HasPartBefore stream.buffer.size)
    (hplain : last.PlainUpTo count) (hlt : stream.buffer.size < count) :
    (lexToken mode stream.cursor).comments =
      last.commentsAt stream.buffer.size := by
  obtain ⟨hcursor, hno⟩ := hplain.agree hlast hstream h.partsFirst _
    (Nat.le_of_lt hlt) (Nat.le_refl _)
  rw [hstream.lexes.cursor_eq, hcursor]
  exact (hplain.found hlast hlt fun heq => hno (hmode heq)).2.2

/-- What has been recorded is not recorded again. -/
theorem comments_lexAhead_of_subset (h : Records text last stream)
    (hsubset : ∀ comment ∈ (lexToken mode stream.cursor).comments,
      comment ∈ stream.comments) :
    (stream.lexAhead mode).comments = stream.comments :=
  h.newestFirst.recordComments_of_subset hsubset

/-- Behind the place in question, whatever is found is recorded behind it. -/
theorem recordsUpTo_beyond (hstream : stream.Reads text)
    {others : List Comment}
    (hcomments :
      stream.comments = others ++ (last.commentsUpTo count).reverse)
    (hothers : ∀ comment ∈ others,
      (last.cursorAt count).offset ≤ comment.span.start)
    (hoffset : (last.cursorAt count).offset ≤ stream.cursor.offset) :
    last.RecordsUpTo count (stream.lexAhead mode) := by
  obtain ⟨added, hadded, hmem⟩ := recordComments_append stream.comments
    (lexToken mode stream.cursor).comments
  have hrecorded : (stream.lexAhead mode).comments =
      (added ++ others) ++ (last.commentsUpTo count).reverse := by
    rw [List.append_assoc, ← hcomments]
    exact hadded
  refine .beyond hrecorded
    (List.forall_mem_append.mpr ⟨fun comment hcomment => ?_, hothers⟩)
  exact Nat.le_trans hoffset
    ((hstream.cursor_isIn.gap mode).start_of_mem (hmem comment hcomment)).1

/-- Looking at one more token records what stands in front of it, if it has not
been looked at before. -/
theorem upTo_lexAhead (h : Records text last stream)
    (hlast : last.Reads text) (hstream : stream.Reads text)
    (hmode : mode = .templateContinue →
      stream.HasPartBefore stream.buffer.size)
    (hcount : count ≤ last.buffer.size) (hplain : last.PlainUpTo count) :
    last.RecordsUpTo count (stream.lexAhead mode) := by
  have hsize : (stream.lexAhead mode).buffer.size = stream.buffer.size + 1 :=
    Array.size_push ..
  have hfound := h.comments_of_plain hlast hstream hmode hplain
  cases h.upTo count hcount hplain with
  | @within recorded hrecorded hle hcomments =>
      have hlt := Nat.lt_of_le_of_lt hle hrecorded
      rcases Nat.lt_or_eq_of_le hle with hlooked | heq
      · have hagain : (stream.lexAhead mode).comments = stream.comments := by
          refine h.comments_lexAhead_of_subset fun comment hmem => ?_
          rw [hfound hlt] at hmem
          rw [hcomments, List.mem_reverse]
          exact mem_commentsUpTo hlooked hmem
        exact .within hrecorded (by rw [hsize]; exact hlooked)
          (hagain.trans hcomments)
      · have hnew : (stream.lexAhead mode).comments =
            (last.commentsUpTo (recorded + 1)).reverse := by
          rw [← hlast.recordComments_commentsAt
            (Nat.lt_of_lt_of_le hrecorded hcount), ← hcomments, ← heq,
            ← hfound hlt]
          rfl
        rcases Nat.lt_or_eq_of_le (Nat.succ_le_of_lt hrecorded) with
          hnext | hend
        · exact .within hnext (Nat.le_of_eq (by rw [hsize, heq])) hnew
        · rw [← hend]
          exact .of_eq hnew
  | @beyond others hcomments hothers =>
      rcases Nat.lt_or_ge stream.buffer.size count with hlt | hge
      · have hagain : (stream.lexAhead mode).comments = stream.comments := by
          refine h.comments_lexAhead_of_subset fun comment hmem => ?_
          rw [hfound hlt] at hmem
          rw [hcomments]
          exact List.mem_append_right others
            (List.mem_reverse.mpr (mem_commentsUpTo hlt hmem))
        exact .beyond (hagain.trans hcomments) hothers
      · have hcursor := (hplain.agree hlast hstream h.partsFirst count
          (Nat.le_refl _) hge).1
        refine recordsUpTo_beyond hstream hcomments hothers ?_
        rw [← hcursor, hstream.lexes.cursor_eq]
        exact hstream.lexes.offset_mono (Nat.zero_le _) hge (Nat.le_refl _)

end Looking

theorem lexAhead (h : Records text last stream) (hlast : last.Reads text)
    (hstream : stream.Reads text) {mode : LexMode}
    (hmode : mode = .templateContinue →
      stream.HasPartBefore stream.buffer.size) :
    Records text last (stream.lexAhead mode) where
  partsFirst := h.partsFirst.lexAhead hmode
  newestFirst := h.newestFirst.recordComments _
  written := h.written_lexAhead hstream mode
  reaches := h.reaches_lexAhead hstream mode
  upTo _ := h.upTo_lexAhead hlast hstream hmode

theorem prepare (h : Records text last stream) (hlast : last.Reads text)
    (hstream : stream.Reads text) {mode : LexMode}
    (hmode : mode = .templateContinue → stream.HasPart) :
    Records text last (stream.prepare mode) := by
  have hpart : mode = .templateContinue →
      stream.HasPartBefore stream.consumed := by
    intro hcontinue
    obtain ⟨_, ⟨index, next, _, hlt, hnext, rfl⟩, hkind⟩ := hmode hcontinue
    exact ⟨index, hlt, next, hnext, hkind⟩
  rw [TokenStream.prepare]
  split
  · split
    · exact h
    · have hdiscarded : stream.discardAhead.Reads text :=
        ⟨hstream.lexes.discardAhead, hstream.origin_eq, hstream.size_eq⟩
      refine (h.discardAhead hstream).lexAhead hlast hdiscarded fun heq => ?_
      rw [hstream.lexes.size_discardAhead]
      refine (hpart heq).congr fun earlier hlt => ?_
      rw [getElem?_discardAhead, if_pos hlt]
  · rename_i hnone
    have hsize : stream.consumed = stream.buffer.size :=
      Nat.le_antisymm hstream.lexes.consumed_le
        (Array.getElem?_eq_none_iff.mp hnone)
    rw [hsize] at hpart
    exact h.lexAhead hlast hstream hpart

theorem forward (h : Records text last stream) (hlast : last.Reads text)
    (hstream : stream.Reads text) {mode : LexMode}
    (hmode : mode = .templateContinue → stream.HasPart)
    (keep : Token → Bool) :
    Records text last (stream.forward mode keep).2 := by
  have hprepared := h.prepare hlast hstream hmode
  rw [TokenStream.forward]
  dsimp only
  split
  · exact hprepared.withConsumed _
  · exact hprepared

/-- What is known in the end of the tokens that are consumed. -/
theorem plainUpTo (h : Records text last last) (hlast : last.Reads text)
    (hcount : count ≤ last.consumed)
    (hplain : ∀ index next, index < count →
      last.buffer[index]? = some next → next.token.IsPlain) :
    last.PlainUpTo count := by
  intro index hindex
  have hsize := Nat.lt_of_lt_of_le hindex
    (Nat.le_trans hcount hlast.lexes.consumed_le)
  have hnext : last.buffer[index]? = some last.buffer[index] :=
    Array.getElem?_eq_getElem hsize
  refine ⟨_, hnext, fun hmode => ?_, hplain index _ hindex hnext⟩
  obtain ⟨earlier, hlt, part, hpart, hkind⟩ :=
    h.partsFirst index _ hnext hmode
  exact (hplain earlier part (Nat.lt_trans hlt hindex) hpart).1 hkind

/-- The comments up to some place are listed, if all tokens up to there are
plain. -/
theorem filter_comments (h : Records text last last)
    (hlast : last.Reads text) (hcount : count ≤ last.consumed)
    (hplain : last.PlainUpTo count) :
    last.comments.reverse.filter
        (·.span.start < (last.cursorAt count).offset) =
      last.commentsUpTo count := by
  have hsize := Nat.le_trans hcount hlast.lexes.consumed_le
  have hbefore := hlast.start_of_mem_commentsUpTo hsize
  cases h.upTo count hsize hplain with
  | within hlt hle _ => omega
  | @beyond others hcomments hothers =>
      have hkept : (last.commentsUpTo count).filter
          (·.span.start < (last.cursorAt count).offset) =
          last.commentsUpTo count :=
        List.filter_eq_self.mpr fun comment hmem =>
          decide_eq_true (hbefore comment hmem)
      have hleft : others.reverse.filter
          (·.span.start < (last.cursorAt count).offset) = [] :=
        List.filter_eq_nil_iff.mpr fun comment hmem => by
          have hge := hothers comment (List.mem_reverse.mp hmem)
          simpa using hge
      rw [hcomments, List.reverse_append, List.reverse_reverse,
        List.filter_append, hkept, hleft, List.append_nil]

end Records

/-- What is listed of the comments of a text, in view of the tokens that are
consumed of it in the end. -/
structure Lists (text : List Char) (last : TokenStream)
    (comments : List Comment) : Prop where
  sorted : comments.Pairwise fun first second =>
    first.span.start < second.span.start
  /-- Each listed comment is written where it is listed. -/
  written : ∀ comment ∈ comments,
    IsGap text comment.span.start comment.span.stop [comment]
  /-- No comment in front of a token starts behind all that are listed. -/
  reaches : ∀ index < last.consumed, ∀ comment ∈ last.commentsAt index,
    ∃ other ∈ comments, comment.span.start ≤ other.span.start
  /-- Up to the first token that is not plain, just the comments in front of the
  tokens are listed. -/
  upTo : ∀ count ≤ last.consumed,
    (∀ index next, index < count → last.buffer[index]? = some next →
      next.token.IsPlain) →
    comments.filter (·.span.start < last.stopAt count) =
      last.commentsUpTo count
  /-- If all tokens are plain, this is all that is listed. -/
  all : (∀ index next, index < last.consumed →
      last.buffer[index]? = some next → next.token.IsPlain) →
    comments = last.commentsUpTo last.consumed

end TokenStream

namespace Program

open TokenStream

section Whole

variable {source : String} {nodes : List Node} {last : TokenStream}

theorem records_of_run
    (hrun : wholeSource source (ofSource source.toList) = .ok nodes last) :
    Records source.toList last last := by
  have hlast := reads_of_run hrun
  let passage : Passage :=
    { text := source.toList
      first := 0
      last := last
      reads := hlast
      Kept := Records source.toList last
      kept_forward := fun _ keep hstream hkept hmode =>
        hkept.forward hlast hstream hmode keep
      kept_restore := fun _ hkept => hkept.withConsumed _ }
  have henters : passage.Enters (ofSource source.toList) :=
    ⟨reads_ofSource source.toList, Nat.zero_le _, .ofSource _ _⟩
  exact (Sound.of_ok inferInstance henters hrun hlast).1

/-- A source is consumed up to its end. -/
theorem lastEnd_of_run
    (hrun : wholeSource source (ofSource source.toList) = .ok nodes last) :
    last.lastEnd = Text.byteLength source.toList := by
  obtain ⟨found, between, hstatements, hrest⟩ :=
    Outcome.bind_eq_ok_iff.mp hrun
  obtain ⟨token, ending, hrequire, hpure⟩ := Outcome.bind_eq_ok_iff.mp hrest
  obtain ⟨_, rfl⟩ := Outcome.pure_eq_ok_iff.mp hpure
  have hstatementsReads : between.Reads source.toList := by
    have hdisciplined :
        Disciplined false (Grammar.forSource .module source).statements := by
      rw [Grammar.statements]
      infer_instance
    exact hdisciplined.reads (reads_ofSource source.toList) hstatements
  obtain ⟨hconsume, hkind⟩ := consume_of_require hrequire
  rw [lastEnd_of_consume hstatementsReads.lexes hconsume]
  obtain ⟨rfl, _⟩ := consume_eq_ok_iff.mp hconsume
  rw [hstatementsReads.lexes.upcoming_prepare] at hkind ⊢
  rw [(hstatementsReads.cursorAt_isIn
    hstatementsReads.lexes.consumed_le).1.span_endOfInput hkind]
  rfl

theorem lists_of_run
    (hrun : wholeSource source (ofSource source.toList) = .ok nodes last) :
    last.Lists source.toList last.comments.reverse := by
  have hlast := reads_of_run hrun
  have hrecords := records_of_run hrun
  have hwritten : ∀ comment ∈ last.comments.reverse,
      IsGap source.toList comment.span.start comment.span.stop [comment] :=
    fun comment hmem => hrecords.written comment (List.mem_reverse.mp hmem)
  have hupTo : ∀ count ≤ last.consumed,
      (∀ index next, index < count → last.buffer[index]? = some next →
        next.token.IsPlain) →
      last.comments.reverse.filter (·.span.start < last.stopAt count) =
        last.commentsUpTo count := by
    intro count hcount hplain
    rw [(hlast.cursorAt_isIn
      (Nat.le_trans hcount hlast.lexes.consumed_le)).2]
    exact hrecords.filter_comments hlast hcount
      (hrecords.plainUpTo hlast hcount hplain)
  refine ⟨List.pairwise_reverse.mpr hrecords.newestFirst, hwritten, ?_, hupTo,
    fun hplain => ?_⟩
  · intro index _ comment hmem
    obtain ⟨other, hother, hle⟩ := hrecords.reaches index comment hmem
    exact ⟨other, List.mem_reverse.mpr hother, hle⟩
  · have hwhole := hupTo last.consumed (Nat.le_refl _) hplain
    rwa [List.filter_eq_self.mpr fun comment hmem => ?_] at hwhole
    have hgap := hwritten comment hmem
    rw [← lastEnd_eq_stopAt, lastEnd_of_run hrun]
    exact decide_eq_true (Nat.lt_of_lt_of_le
      (hgap.start_of_mem List.mem_cons_self).2 hgap.stop_le)

end Whole

theorem exists_lists_of_parse {source : String} {program : Program}
    (hparse : parse source = .ok program) :
    ∃ last : TokenStream, last.Lists source.toList program.comments := by
  rw [parse_eq] at hparse
  obtain ⟨⟨nodes, last⟩, hrun, hpure⟩ := Except.bind_eq_ok_iff.mp hparse
  obtain rfl := Except.ok.inj hpure
  exact ⟨last, lists_of_run (run_eq_ok_iff.mp hrun)⟩

/-- A program lists comments in order and each once, and each of them is written
as a comment in the source.  Up to the first token that is found in some modes
only, or behind which a template goes on, these are just the comments in the
gaps in front of the consumed tokens. -/
theorem comments_listed {source : String} {program : Program}
    (hparse : parse source = .ok program) :
    ∃ last, wholeSource source (ofSource source.toList) =
        .ok program.statements last ∧
      (∀ index next, index < last.consumed →
        last.buffer[index]? = some next →
        IsGap source.toList (last.stopAt index) next.token.span.start
          (last.commentsAt index)) ∧
      last.Lists source.toList program.comments := by
  rw [parse_eq] at hparse
  obtain ⟨⟨nodes, last⟩, hrun, hpure⟩ := Except.bind_eq_ok_iff.mp hparse
  obtain rfl := Except.ok.inj hpure
  have hwhole := run_eq_ok_iff.mp hrun
  have hlast := reads_of_run hwhole
  refine ⟨last, hwhole, fun index next hindex hnext => ?_, lists_of_run hwhole⟩
  rw [(hlast.cursorAt_isIn (Nat.le_of_lt
    (Nat.lt_of_lt_of_le hindex hlast.lexes.consumed_le))).2]
  exact hlast.gap_commentsAt hnext

/-- Both comments are listed, and they are the comments of the gaps. -/
theorem comments_listed_between :
    ∃ program, parse "a /*x*/ = 1; // y" = .ok program ∧
      ∃ last, wholeSource "a /*x*/ = 1; // y"
          (ofSource "a /*x*/ = 1; // y".toList) =
            .ok program.statements last ∧
        last.Lists "a /*x*/ = 1; // y".toList program.comments ∧
        program.comments = [⟨⟨2, 7⟩, true⟩, ⟨⟨13, 17⟩, false⟩] := by
  have hfacts : ((parse "a /*x*/ = 1; // y").toOption.any fun program =>
      program.comments = [⟨⟨2, 7⟩, true⟩, ⟨⟨13, 17⟩, false⟩]) = true := by
    decide +kernel
  obtain ⟨program, hparse, hcomments⟩ := Except.exists_of_any_toOption hfacts
  obtain ⟨last, hrun, _, hlists⟩ := comments_listed hparse
  exact ⟨program, hparse, last, hrun, hlists, of_decide_eq_true hcomments⟩

/-- Text inside of a template is listed as a comment, though there is none in
front of any token. -/
theorem template_listed :
    ∃ program, parse "\x60${a}//b\x60" = .ok program ∧
      ∃ last, wholeSource "\x60${a}//b\x60"
          (ofSource "\x60${a}//b\x60".toList) =
            .ok program.statements last ∧
        program.comments = [⟨⟨5, 9⟩, false⟩] ∧
        last.commentsUpTo last.consumed = [] ∧
        3 < last.consumed ∧ ∃ tail ∈ last.buffer[3]?,
          tail.token.kind = .templateTail ∧ tail.token.span = ⟨5, 9⟩ := by
  have hfacts : (((wholeSource "\x60${a}//b\x60").run
      "\x60${a}//b\x60").toOption.any fun outcome =>
        decide (outcome.2.comments = [⟨⟨5, 9⟩, false⟩]) &&
        decide (outcome.2.commentsUpTo outcome.2.consumed = []) &&
        decide (3 < outcome.2.consumed) &&
        outcome.2.buffer[3]?.any fun tail =>
          decide (tail.token.kind = .templateTail) &&
          decide (tail.token.span = ⟨5, 9⟩)) = true := by
    decide +kernel
  obtain ⟨⟨nodes, last⟩, hrun, hfacts⟩ :=
    Except.exists_of_any_toOption hfacts
  simp only [Bool.and_eq_true, decide_eq_true_eq, Option.any_eq_true]
    at hfacts
  obtain ⟨⟨⟨hcomments, hgaps⟩, hlt⟩, tail, htail, hkind, hspan⟩ := hfacts
  refine ⟨_, by rw [parse_eq, hrun]; rfl, last, run_eq_ok_iff.mp hrun, ?_,
    hgaps, hlt, tail, htail, hkind, hspan⟩
  rw [hcomments]
  rfl

end Program

end Bundler
