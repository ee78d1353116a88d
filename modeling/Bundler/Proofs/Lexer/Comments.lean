import Bundler.Proofs.Lexer.Gaps

/-!
# Comments of gaps

The comments of a gap stand in it, one behind the other.  Recording comments
keeps what has been recorded, and leaves out whatever does not start behind the
last one: what has been recorded before is not recorded again, and what stands
behind is recorded as it is.
-/

namespace Bundler

/-! ### Comments in gaps -/

theorem Text.utf8Size_slash : ('/' : Char).utf8Size = 1 := rfl

theorem Text.utf8Size_star : ('*' : Char).utf8Size = 1 := rfl

/-- A comment is written somewhere in a piece of text that begins at an offset,
with some text behind it. -/
def Comment.IsWritten (behind : List Char) (offset : Nat) (piece : List Char)
    (comment : Comment) : Prop :=
  ∃ front written rest, piece = front ++ (written ++ rest) ∧
    comment.span.start = offset + Text.byteLength front ∧
    comment.span.stop = comment.span.start + Text.byteLength written ∧
    Spacing (rest ++ behind) comment.span.start written [comment]

theorem Comment.IsWritten.append {behind piece : List Char} {offset : Nat}
    {comment : Comment} (front : List Char)
    (h : comment.IsWritten behind (offset + Text.byteLength front) piece) :
    comment.IsWritten behind offset (front ++ piece) := by
  obtain ⟨between, written, rest, rfl, hstart, hstop, hwritten⟩ := h
  refine ⟨front ++ between, written, rest, ?_, ?_, hstop, hwritten⟩
  · rw [List.append_assoc]
  · rw [Text.byteLength_append, hstart, Nat.add_assoc]

namespace Spacing

variable {behind gap : List Char} {offset : Nat} {comments : List Comment}

/-- The comments of a gap stand in it. -/
theorem start_of_mem (h : Spacing behind offset gap comments) :
    ∀ comment ∈ comments, offset ≤ comment.span.start ∧
      comment.span.start < offset + Text.byteLength gap := by
  induction h with
  | nil => exact fun _ hmem => absurd hmem List.not_mem_nil
  | space _ _ ih =>
      intro comment hmem
      obtain ⟨hstart, hstop⟩ := ih comment hmem
      rw [Text.byteLength]
      omega
  | line _ _ hstop _ ih | block _ hstop _ ih =>
      simp only [Text.byteLength, Text.byteLength_append,
        Text.utf8Size_slash, Text.utf8Size_star]
      refine List.forall_mem_cons.mpr ⟨by dsimp only; omega, ?_⟩
      intro comment hmem
      have hin := ih comment hmem
      omega
  | unclosed _ _ hstop =>
      rw [Text.byteLength, Text.utf8Size_slash, List.forall_mem_singleton]
      dsimp only
      omega

/-- The comments of a gap stand one behind the other. -/
theorem pairwise (h : Spacing behind offset gap comments) :
    comments.Pairwise fun first second =>
      first.span.start < second.span.start := by
  induction h with
  | nil => exact .nil
  | space _ _ ih => exact ih
  | line _ _ hstop hgap ih | block _ hstop hgap ih =>
      refine .cons (fun comment hmem => ?_) ih
      have hin := hgap.start_of_mem comment hmem
      dsimp only
      omega
  | unclosed _ _ _ => exact List.pairwise_singleton _ _

theorem isWritten_of_mem (h : Spacing behind offset gap comments) :
    ∀ comment ∈ comments, comment.IsWritten behind offset gap := by
  induction h with
  | nil => exact fun _ hmem => absurd hmem List.not_mem_nil
  | @space offset c gap comments _ _ ih =>
      exact fun comment hmem => (ih comment hmem).append [c]
  | @line offset stop body gap comments hbody hends hstop hgap ih =>
      have hwritten : Spacing (gap ++ behind) offset
          ('/' :: '/' :: (body ++ [])) [⟨⟨offset, stop⟩, false⟩] :=
        .line hbody hends hstop .nil
      have hbytes : stop = offset + Text.byteLength ('/' :: '/' :: body) := by
        simp only [hstop, Text.byteLength, Text.utf8Size_slash]
        omega
      rw [List.append_nil] at hwritten
      refine List.forall_mem_cons.mpr ⟨⟨[], _, gap, rfl, rfl, hbytes,
        hwritten⟩, fun comment hmem => ?_⟩
      exact (hbytes ▸ ih comment hmem).append ('/' :: '/' :: body)
  | @block offset stop body gap comments hbody hstop hgap ih =>
      have hwritten : Spacing (gap ++ behind) offset
          ('/' :: '*' :: (body ++ ['*', '/'])) [⟨⟨offset, stop⟩, true⟩] :=
        .block hbody hstop .nil
      have hbytes : stop = offset +
          Text.byteLength ('/' :: '*' :: (body ++ ['*', '/'])) := by
        simp only [hstop, Text.byteLength, Text.byteLength_append,
          Text.utf8Size_slash, Text.utf8Size_star]
        omega
      have hpiece : '/' :: '*' :: (body ++ '*' :: '/' :: gap) =
          '/' :: '*' :: (body ++ ['*', '/']) ++ gap := by simp
      rw [hpiece]
      refine List.forall_mem_cons.mpr ⟨⟨[], _, gap, rfl, rfl, hbytes,
        hwritten⟩, fun comment hmem => ?_⟩
      exact (hbytes ▸ ih comment hmem).append
        ('/' :: '*' :: (body ++ ['*', '/']))
  | @unclosed offset stop body hbody hbehind hstop =>
      have hbytes : stop = offset + Text.byteLength ('/' :: '*' :: body) := by
        simp only [hstop, Text.byteLength, Text.utf8Size_slash,
          Text.utf8Size_star]
        omega
      exact List.forall_mem_singleton.mpr ⟨[], _, [], (List.append_nil _).symm,
        rfl, hbytes, .unclosed hbody hbehind hstop⟩

end Spacing

namespace IsGap

variable {text : List Char} {start stop : Nat} {comments : List Comment}
  {comment : Comment}

theorem start_of_mem (h : IsGap text start stop comments)
    (hmem : comment ∈ comments) :
    start ≤ comment.span.start ∧ comment.span.start < stop := by
  obtain ⟨_, _, _, _, _, rfl, hgap⟩ := h
  exact hgap.start_of_mem comment hmem

theorem stop_le_of_mem (h : IsGap text start stop comments)
    (hmem : comment ∈ comments) : comment.span.stop ≤ stop := by
  obtain ⟨_, _, _, _, _, rfl, hgap⟩ := h
  obtain ⟨between, written, rest, rfl, hstart, hstop, _⟩ :=
    hgap.isWritten_of_mem comment hmem
  rw [hstop, hstart, Text.byteLength_append, Text.byteLength_append]
  omega

theorem stop_le (h : IsGap text start stop comments) :
    stop ≤ Text.byteLength text := by
  obtain ⟨front, gap, behind, rfl, rfl, rfl, _⟩ := h
  rw [Text.byteLength_append, Text.byteLength_append]
  omega

theorem isIn (h : IsGap text start stop comments) :
    Span.IsIn text ⟨start, stop⟩ := by
  obtain ⟨front, gap, behind, rfl, rfl, rfl, _⟩ := h
  refine ⟨⟨front, _, rfl, rfl⟩, ⟨front ++ gap, behind, ?_, ?_⟩,
    Nat.le_add_right _ _⟩
  · rw [List.append_assoc]
  · rw [Text.byteLength_append]

theorem pairwise (h : IsGap text start stop comments) :
    comments.Pairwise fun first second =>
      first.span.start < second.span.start := by
  obtain ⟨_, _, _, _, _, _, hgap⟩ := h
  exact hgap.pairwise

/-- Each comment of a gap is a gap of its own. -/
theorem of_mem (h : IsGap text start stop comments)
    (hmem : comment ∈ comments) :
    IsGap text comment.span.start comment.span.stop [comment] := by
  obtain ⟨front, gap, behind, rfl, rfl, rfl, hgap⟩ := h
  obtain ⟨between, written, rest, rfl, hstart, hstop, hwritten⟩ :=
    hgap.isWritten_of_mem comment hmem
  refine ⟨front ++ between, written, rest ++ behind, ?_, ?_, hstop, hwritten⟩
  · simp only [List.append_assoc]
  · rw [Text.byteLength_append, hstart]

end IsGap

/-! ### Recording -/

section Recording

variable {seen found : List Comment}

/-- Comments that start later come first. -/
def NewestFirst (comments : List Comment) : Prop :=
  comments.Pairwise fun later earlier => earlier.span.start < later.span.start

/-- The last recorded comment starts in front of a place. -/
def EndsBefore (seen : List Comment) (offset : Nat) : Prop :=
  ∀ last ∈ seen.head?, last.span.start < offset

theorem recordComments_cons_of_endsBefore {comment : Comment}
    (h : EndsBefore seen comment.span.start) :
    recordComments seen (comment :: found) =
      recordComments (comment :: seen) found := by
  cases seen with
  | nil => rfl
  | cons last seen =>
      have hlast := h last rfl
      rw [recordComments, List.foldl_cons]
      dsimp only
      rw [if_pos hlast]
      rfl

theorem recordComments_cons_of_not_endsBefore {comment : Comment}
    (h : ¬ EndsBefore seen comment.span.start) :
    recordComments seen (comment :: found) = recordComments seen found := by
  cases seen with
  | nil => exact absurd (fun _ hmem => nomatch hmem) h
  | cons last seen =>
      have hlast : ¬ last.span.start < comment.span.start :=
        fun hlt => h fun _ hmem => by
          cases hmem
          exact hlt
      rw [recordComments, List.foldl_cons]
      dsimp only
      rw [if_neg hlast]
      rfl

/-- What is recorded comes on top of what has been recorded. -/
theorem recordComments_append (seen found : List Comment) :
    ∃ added, recordComments seen found = added ++ seen ∧
      ∀ comment ∈ added, comment ∈ found := by
  induction found generalizing seen with
  | nil => exact ⟨[], rfl, nofun⟩
  | cons comment found ih =>
      by_cases h : EndsBefore seen comment.span.start
      · obtain ⟨added, hadded, hfound⟩ := ih (comment :: seen)
        refine ⟨added ++ [comment], ?_, ?_⟩
        · rw [recordComments_cons_of_endsBefore h, hadded, List.append_assoc]
          rfl
        · exact List.forall_mem_append.mpr
            ⟨fun other hmem => List.mem_cons_of_mem _ (hfound other hmem),
              List.forall_mem_singleton.mpr List.mem_cons_self⟩
      · obtain ⟨added, hadded, hfound⟩ := ih seen
        exact ⟨added, by rw [recordComments_cons_of_not_endsBefore h, hadded],
          fun other hmem => List.mem_cons_of_mem _ (hfound other hmem)⟩

theorem mem_recordComments_of_mem {comment : Comment}
    (h : comment ∈ seen) : comment ∈ recordComments seen found := by
  obtain ⟨added, hadded, _⟩ := recordComments_append seen found
  rw [hadded]
  exact List.mem_append_right added h

theorem NewestFirst.cons {comment : Comment} (hseen : NewestFirst seen)
    (h : EndsBefore seen comment.span.start) :
    NewestFirst (comment :: seen) := by
  refine List.Pairwise.cons (fun other hother => ?_) hseen
  cases seen with
  | nil => exact absurd hother List.not_mem_nil
  | cons last seen =>
      have hlast := h last rfl
      rcases List.mem_cons.mp hother with rfl | hother
      · exact hlast
      · exact Nat.lt_trans (List.rel_of_pairwise_cons hseen hother) hlast

/-- Recording keeps the order. -/
theorem NewestFirst.recordComments (hseen : NewestFirst seen)
    (found : List Comment) : NewestFirst (recordComments seen found) := by
  induction found generalizing seen with
  | nil => exact hseen
  | cons comment found ih =>
      by_cases h : EndsBefore seen comment.span.start
      · rw [recordComments_cons_of_endsBefore h]
        exact ih (hseen.cons h)
      · rw [recordComments_cons_of_not_endsBefore h]
        exact ih hseen

/-- No comment that is to be recorded starts behind all that are. -/
theorem exists_recorded (seen : List Comment) {found : List Comment} :
    ∀ comment ∈ found, ∃ other ∈ recordComments seen found,
      comment.span.start ≤ other.span.start := by
  induction found generalizing seen with
  | nil => exact fun _ hmem => absurd hmem List.not_mem_nil
  | cons comment found ih =>
      by_cases h : EndsBefore seen comment.span.start
      · rw [recordComments_cons_of_endsBefore h]
        exact List.forall_mem_cons.mpr ⟨⟨comment,
          mem_recordComments_of_mem List.mem_cons_self, Nat.le_refl _⟩,
          ih (comment :: seen)⟩
      · rw [recordComments_cons_of_not_endsBefore h]
        refine List.forall_mem_cons.mpr ⟨?_, ih seen⟩
        simp only [EndsBefore, Classical.not_forall, Nat.not_lt] at h
        obtain ⟨last, hlast, hle⟩ := h
        exact ⟨last, mem_recordComments_of_mem (List.mem_of_mem_head? hlast),
          hle⟩

theorem NewestFirst.not_endsBefore {comment : Comment}
    (hseen : NewestFirst seen) (hmem : comment ∈ seen) :
    ¬ EndsBefore seen comment.span.start := by
  intro h
  cases seen with
  | nil => exact absurd hmem List.not_mem_nil
  | cons last seen =>
      have hlast := h last rfl
      rcases List.mem_cons.mp hmem with rfl | hmem
      · exact Nat.lt_irrefl _ hlast
      · exact Nat.lt_asymm hlast (List.rel_of_pairwise_cons hseen hmem)

/-- What has been recorded is not recorded again. -/
theorem NewestFirst.recordComments_of_subset (hseen : NewestFirst seen)
    (h : ∀ comment ∈ found, comment ∈ seen) :
    Bundler.recordComments seen found = seen := by
  induction found with
  | nil => rfl
  | cons comment found ih =>
      obtain ⟨hcomment, hfound⟩ := List.forall_mem_cons.mp h
      rw [recordComments_cons_of_not_endsBefore
        (hseen.not_endsBefore hcomment), ih hfound]

theorem endsBefore_of_forall {offset : Nat}
    (h : ∀ comment ∈ seen, comment.span.start < offset) :
    EndsBefore seen offset :=
  fun last hlast => h last (List.mem_of_mem_head? hlast)

/-- What stands behind all that is recorded is recorded as it is. -/
theorem recordComments_of_lt
    (hfound : found.Pairwise fun first second =>
      first.span.start < second.span.start)
    (h : ∀ comment ∈ found, EndsBefore seen comment.span.start) :
    recordComments seen found = found.reverse ++ seen := by
  induction found generalizing seen with
  | nil => rfl
  | cons comment found ih =>
      obtain ⟨hcomment, _⟩ := List.forall_mem_cons.mp h
      obtain ⟨hfirst, hfound⟩ := List.pairwise_cons.mp hfound
      rw [recordComments_cons_of_endsBefore hcomment, ih hfound,
        List.reverse_cons, List.append_assoc]
      · rfl
      · rintro other hother _ ⟨⟩
        exact hfirst other hother

end Recording

/-! ### Modes -/

theorem Punctuator.length_text_ne_zero (mark : Punctuator) :
    mark.text.length ≠ 0 := by
  cases mark <;> decide

namespace Lexeme

/-- A slash is a mark, or opens a longer one. -/
theorem head?_punctuation_slash (cs : List Char) :
    (punctuation ('/' :: cs)).taken.head? = some '/' := by
  have hfound : (Punctuator.longestAt? ('/' :: cs)).isSome = true := by
    rw [Punctuator.longestAt?, List.find?_isSome]
    exact ⟨.slash, by decide, rfl⟩
  obtain ⟨mark, hmark⟩ := Option.isSome_iff_exists.mp hfound
  obtain ⟨size, hsize⟩ :=
    Nat.exists_eq_succ_of_ne_zero mark.length_text_ne_zero
  have hpunctuation : punctuation ('/' :: cs) =
      ⟨.punctuator mark, ('/' :: cs).take mark.text.length,
        ('/' :: cs).drop mark.text.length⟩ := by
    rw [punctuation, hmark]
    nofun
  rw [hpunctuation, hsize]
  rfl

/-- What a lexeme is depends on the mode only where it starts with a slash. -/
theorem read_eq_of_head? {mode : LexMode} {text : List Char}
    (hhead : (read mode text).taken.head? ≠ some '/') (other : LexMode) :
    read other text = read mode text := by
  cases text with
  | nil => rfl
  | cons c cs =>
      by_cases hslash : c = '/'
      · subst hslash
        have hread : read mode ('/' :: cs) =
            if mode = .slashIsRegex then regex cs
            else punctuation ('/' :: cs) := by
          cases mode <;> rfl
        rw [hread] at hhead
        split at hhead
        · rw [regex] at hhead
          split at hhead <;> exact absurd rfl hhead
        · exact absurd (head?_punctuation_slash cs) hhead
      · simp only [read, hslash, decide_false, Bool.false_and]

end Lexeme

/-- A token that every mode finds outside of templates, and behind which no
substitution follows. -/
def Token.IsPlain (token : Token) : Prop :=
  token.kind ≠ .templatePart ∧ token.text.toList.head? ≠ some '/'

/-- A plain token is found in all modes but the one inside of a template. -/
theorem lexToken_eq_of_isPlain {mode other : LexMode} {cursor : Cursor}
    (hmode : mode ≠ .templateContinue) (hother : other ≠ .templateContinue)
    (hplain : (lexToken mode cursor).token.IsPlain) :
    lexToken other cursor = lexToken mode cursor := by
  have hhead := hplain.2
  rw [lexToken_eq hmode] at hhead ⊢
  rw [lexToken_eq hother]
  dsimp only at hhead ⊢
  rw [Lexed.ofLexeme, String.toList_ofList] at hhead
  rw [Lexeme.read_eq_of_head? hhead other]

end Bundler
