import Bundler.Proofs.Build.ReadBack
import Bundler.Proofs.Lexer.Comments
import Bundler.Proofs.Lexer.LongestMatch
import Bundler.Proofs.Lexer.Margins

/-!
# Words looked for in a text

A word is found where it first occurs.  White space, line terminators and the
delimiters of comments are no letters, so a word of letters that occurs in a gap occurs
in one of its comments, and none begins in a gap and ends in the token behind it.
-/

namespace Bundler

namespace Text

section Cutting

variable {left right : List Char} {count : Nat}

/-- A slice that ends behind a piece of text starts with it. -/
theorem slice_append_from (front middle rest : List Char) {stop : Nat}
    (h : byteLength front + byteLength middle ≤ stop) :
    slice (front ++ (middle ++ rest)) ⟨byteLength front, stop⟩ =
      middle ++ takeBytes (stop - (byteLength front + byteLength middle)) rest := by
  rw [slice, dropBytes_byteLength_append, takeBytes_append (by dsimp only; omega),
    Nat.sub_sub]

theorem head?_takeBytes {text : List Char} {c : Char}
    (h : c ∈ (takeBytes count text).head?) : c ∈ text.head? ∧ count ≠ 0 := by
  cases text with
  | nil => cases h
  | cons d text =>
      rw [takeBytes] at h
      split at h
      · cases h
        have hpos := c.utf8Size_pos
        exact ⟨rfl, by omega⟩
      · cases h

theorem exists_append_of_byteLength_le {left right others rest : List Char}
    (h : left ++ right = others ++ rest) (hle : byteLength left ≤ byteLength others) :
    ∃ middle, others = left ++ middle ∧ right = middle ++ rest := by
  rcases List.append_eq_append_iff.mp h with ⟨middle, rfl, rfl⟩ | ⟨middle, rfl, rfl⟩
  · exact ⟨middle, rfl, rfl⟩
  · rw [byteLength_append] at hle
    obtain rfl := eq_nil_of_byteLength (by omega : byteLength middle = 0)
    exact ⟨[], by simp, by simp⟩

/-- What a text starts with is not longer for what stands behind one that ends it. -/
theorem takeWhile_append {p : Char → Bool} (h : ∀ c ∈ right.head?, p c = false) :
    (left ++ right).takeWhile p = left.takeWhile p := by
  induction left with
  | nil =>
      cases right with
      | nil => rfl
      | cons c right => exact List.takeWhile_cons_of_neg (by simp [h c rfl])
  | cons c left ih => rw [List.cons_append, List.takeWhile_cons, List.takeWhile_cons, ih]

/-- What a text starts with goes on behind the text only if it is all of it. -/
theorem byteLength_takeWhile_eq_min (p : Char → Bool) (left right : List Char) :
    byteLength (left.takeWhile p) =
      min (byteLength ((left ++ right).takeWhile p)) (byteLength left) := by
  induction left with
  | nil => exact (Nat.min_zero _).symm
  | cons c left ih =>
      rw [List.cons_append, List.takeWhile_cons, List.takeWhile_cons]
      split
      · simp only [byteLength, ih]
        omega
      · exact (Nat.zero_min _).symm

theorem byteLength_takeWhile_le (p : Char → Bool) (text : List Char) :
    byteLength (text.takeWhile p) ≤ byteLength text := by
  rw [byteLength_takeWhile_eq_min p text []]
  exact Nat.min_le_right _ _

end Cutting

/-! ### Occurrences -/

variable {word left right text : List Char} {c : Char}

theorem find?_of_isPrefixOf (h : word <+: text) : find? word text = some 0 := by
  cases text with
  | nil =>
      obtain rfl := List.prefix_nil.mp h
      rfl
  | cons c text => exact if_pos (List.isPrefixOf_iff_prefix.mpr h)

theorem find?_cons (h : ¬ word <+: c :: text) :
    find? word (c :: text) = (find? word text).map (c.utf8Size + ·) :=
  if_neg fun hprefix => h (List.isPrefixOf_iff_prefix.mp hprefix)

/-- A word is looked for behind a text that does not hold it and ends in none of its
characters. -/
theorem find?_append (hleft : ¬ word <:+: left)
    (hlast : ∀ c ∈ left.getLast?, c ∉ word) :
    find? word (left ++ right) = (find? word right).map (byteLength left + ·) := by
  induction left with
  | nil =>
      simp only [List.nil_append, byteLength, Nat.zero_add]
      exact Option.map_id'.symm
  | cons c left ih =>
      have hprefix : ¬ word <+: c :: (left ++ right) := by
        intro hword
        rcases List.prefix_or_prefix_of_prefix hword (List.prefix_append (c :: left) right)
          with hwithin | hbeyond
        · exact hleft hwithin.isInfix
        · exact hlast _ (List.getLast?_eq_getLast_of_ne_nil (List.cons_ne_nil c left))
            (hbeyond.subset (List.getLast_mem _))
      have htail : ¬ word <:+: left := fun h => hleft (List.infix_cons h)
      have hends : ∀ d ∈ left.getLast?, d ∉ word := by
        intro d hd
        refine hlast d ?_
        rw [List.getLast?_cons, hd]
        rfl
      rw [List.cons_append, find?_cons hprefix, ih htail hends, Option.map_map, byteLength]
      congr 1
      funext offset
      exact (Nat.add_assoc _ _ _).symm

/-- A word is found where it occurs. -/
theorem exists_of_find? {offset : Nat} (h : find? word text = some offset) :
    ∃ front back, text = front ++ (word ++ back) ∧ offset = byteLength front := by
  induction text generalizing offset with
  | nil =>
      rw [find?] at h
      split at h
      · cases h
        rename_i hempty
        rw [List.isEmpty_iff.mp hempty]
        exact ⟨[], [], rfl, rfl⟩
      · cases h
  | cons c text ih =>
      by_cases hprefix : word <+: c :: text
      · rw [find?_of_isPrefixOf hprefix] at h
        cases h
        obtain ⟨back, hback⟩ := hprefix
        exact ⟨[], back, hback.symm, rfl⟩
      · rw [find?_cons hprefix, Option.map_eq_some_iff] at h
        obtain ⟨offset, h, rfl⟩ := h
        obtain ⟨front, back, rfl, rfl⟩ := ih h
        exact ⟨c :: front, back, rfl, rfl⟩

/-- No word is found where its first character is not. -/
theorem find?_append_of_not_mem (hc : c ∉ left) :
    find? (c :: word) (left ++ right) =
      (find? (c :: word) right).map (byteLength left + ·) := by
  induction left with
  | nil =>
      simp only [List.nil_append, byteLength, Nat.zero_add]
      exact Option.map_id'.symm
  | cons d left ih =>
      rw [List.mem_cons, not_or] at hc
      rw [List.cons_append, find?_cons fun h => hc.1 (List.cons_prefix_cons.mp h).1, ih hc.2,
        Option.map_map, byteLength]
      congr 1
      funext offset
      exact (Nat.add_assoc _ _ _).symm

/-- A word is found no later than at any of its occurrences. -/
theorem exists_find?_le (word left right : List Char) :
    ∃ offset ≤ byteLength left, find? word (left ++ (word ++ right)) = some offset := by
  induction left with
  | nil => exact ⟨0, Nat.le_refl 0, find?_of_isPrefixOf (List.prefix_append word right)⟩
  | cons c left ih =>
      obtain ⟨offset, hle, hfind⟩ := ih
      by_cases hprefix : word <+: c :: (left ++ (word ++ right))
      · exact ⟨0, Nat.zero_le _, find?_of_isPrefixOf hprefix⟩
      · rw [List.cons_append, find?_cons hprefix, hfind]
        exact ⟨_, Nat.add_le_add_left hle _, rfl⟩

end Text

/-! ### Gaps -/

/-- Characters that separate tokens or delimit comments. -/
def CharClass.separates (c : Char) : Prop :=
  isWhitespace c = true ∨ isLineTerminator c = true ∨ c = '/' ∨ c = '*'

namespace Spacing

open Text

variable {behind gap word : List Char} {offset : Nat} {comments : List Comment}

/-- A gap that is not at the end of its text ends in a character that separates. -/
theorem separates_of_getLast? (h : Spacing behind offset gap comments)
    (hbehind : ∃ c ∈ behind.head?, CharClass.isLineTerminator c = false) :
    ∀ c ∈ gap.getLast?, CharClass.separates c := by
  induction h with
  | nil => simp
  | @space offset c gap comments hspace hgap ih =>
      rw [List.getLast?_cons]
      cases hlast : gap.getLast? with
      | none =>
          rintro d ⟨⟩
          exact hspace.imp_right .inl
      | some last =>
          rintro d ⟨⟩
          exact ih _ hlast
  | @line offset stop body gap comments hbody hends hstop hgap ih =>
      cases gap with
      | nil =>
          obtain ⟨c, hc, hline⟩ := hbehind
          rw [hends c hc] at hline
          cases hline
      | cons d gap =>
          intro c hc
          refine ih c ?_
          simpa [List.getLast?_cons, List.getLast?_append] using hc
  | @block offset stop body gap comments hbody hstop hgap ih =>
      intro c hc
      cases gap with
      | nil =>
          have hslash : c = '/' := by
            simpa [List.getLast?_cons, List.getLast?_append, eq_comm] using hc
          exact .inr (.inr (.inl hslash))
      | cons d gap =>
          refine ih c ?_
          simpa [List.getLast?_cons, List.getLast?_append] using hc
  | unclosed _ hbehind' _ =>
      obtain ⟨c, hc, -⟩ := hbehind
      rw [hbehind'] at hc
      cases hc

/-- A word that occurs in a gap occurs in one of its comments. -/
theorem exists_comment_of_infix (h : Spacing behind offset gap comments)
    (hword : ∀ c ∈ word, ¬ CharClass.separates c) (hne : word ≠ [])
    (hoccurs : word <:+: gap) (front : List Char) (hfront : offset = byteLength front) :
    ∃ comment ∈ comments, word <:+: slice (front ++ (gap ++ behind)) comment.span := by
  have hskip : ∀ {c : Char} (left : List Char) {right : List Char},
      CharClass.separates c → word <:+: left ++ c :: right →
        word <:+: left ∨ word <:+: right :=
    fun left _ hc => infix_of_append_cons fun hmem => hword _ hmem hc
  have hnil : ∀ {c : Char} {right : List Char}, CharClass.separates c →
      word <:+: c :: right → word <:+: right := fun hc h =>
    (hskip [] hc h).resolve_left fun h => hne (List.infix_nil.mp h)
  have hslash : CharClass.separates '/' := .inr (.inr (.inl rfl))
  have hstar : CharClass.separates '*' := .inr (.inr (.inr rfl))
  induction h generalizing front with
  | nil => exact absurd (List.infix_nil.mp hoccurs) hne
  | @space offset c gap comments hspace hgap ih =>
      have hlater := ih (hnil (hspace.imp_right .inl) hoccurs) (front ++ [c])
        (by rw [byteLength_append, hfront, byteLength, byteLength, Nat.add_zero])
      simpa using hlater
  | @line offset stop body gap comments hbody hends hstop hgap ih =>
      have hbytes : stop = offset + byteLength ('/' :: '/' :: body) := by
        simp only [hstop, byteLength, utf8Size_slash]
        omega
      have hinner : word <:+: body ∨ word <:+: gap := by
        have hboth := hnil hslash (hnil hslash hoccurs)
        cases gap with
        | nil => exact .inl (by simpa using hboth)
        | cons c gap =>
            have hc : CharClass.separates c := .inr (.inl (hends c rfl))
            exact (hskip body hc hboth).imp_right List.infix_cons
      rcases hinner with hinner | hlater
      · refine ⟨_, List.mem_cons_self, ?_⟩
        have hslice := Bundle.slice_append front ('/' :: '/' :: body) (gap ++ behind)
        rw [← hfront, ← hbytes] at hslice
        simp only [List.append_assoc, List.cons_append] at hslice ⊢
        rw [hslice]
        exact List.infix_cons (List.infix_cons hinner)
      · have hlater := ih hlater (front ++ '/' :: '/' :: body)
          (by rw [byteLength_append, ← hfront, hbytes])
        obtain ⟨comment, hmem, hcomment⟩ := hlater
        exact ⟨comment, List.mem_cons_of_mem _ hmem, by simpa using hcomment⟩
  | @block offset stop body gap comments hbody hstop hgap ih =>
      have hbytes : stop = offset +
          byteLength ('/' :: '*' :: (body ++ ['*', '/'])) := by
        simp only [hstop, byteLength, byteLength_append, utf8Size_slash, utf8Size_star]
        omega
      have hinner : word <:+: body ∨ word <:+: gap :=
        (hskip body hstar (hnil hstar (hnil hslash hoccurs))).imp_right (hnil hslash)
      rcases hinner with hinner | hlater
      · refine ⟨_, List.mem_cons_self, ?_⟩
        have hslice := Bundle.slice_append front
          ('/' :: '*' :: (body ++ ['*', '/'])) (gap ++ behind)
        rw [← hfront, ← hbytes] at hslice
        simp only [List.append_assoc, List.cons_append, List.nil_append] at hslice ⊢
        rw [hslice]
        exact List.infix_cons (List.infix_cons
          (hinner.trans (List.prefix_append _ _).isInfix))
      · have hlater := ih hlater (front ++ '/' :: '*' :: (body ++ ['*', '/']))
          (by rw [byteLength_append, ← hfront, hbytes])
        obtain ⟨comment, hmem, hcomment⟩ := hlater
        exact ⟨comment, List.mem_cons_of_mem _ hmem, by simpa using hcomment⟩
  | @unclosed offset stop body hbody hbehind hstop =>
      have hbytes : stop = offset + byteLength ('/' :: '*' :: body) := by
        simp only [hstop, byteLength, utf8Size_slash, utf8Size_star]
        omega
      have hslice := Bundle.slice_append front ('/' :: '*' :: body) behind
      rw [← hfront, ← hbytes, List.append_assoc] at hslice
      refine ⟨_, List.mem_cons_self, ?_⟩
      rw [hslice]
      exact hoccurs

/-- A gap holds a word just if one of its comments does. -/
theorem infix_iff (h : Spacing behind offset gap comments)
    (hword : ∀ c ∈ word, ¬ CharClass.separates c) (hne : word ≠ [])
    (front : List Char) (hfront : offset = byteLength front) :
    word <:+: gap ↔
      ∃ comment ∈ comments,
        word <:+: slice (front ++ (gap ++ behind)) comment.span := by
  constructor
  · exact fun hoccurs => h.exists_comment_of_infix hword hne hoccurs front hfront
  · rintro ⟨comment, hmem, hcomment⟩
    obtain ⟨before, written, rest, rfl, hstart, hstop, -⟩ := h.isWritten_of_mem comment hmem
    have hslice := Bundle.slice_append (front ++ before) written (rest ++ behind)
    rw [byteLength_append, ← hfront, ← hstart, ← hstop] at hslice
    simp only [List.append_assoc] at hslice hcomment
    rw [hslice] at hcomment
    exact hcomment.trans ⟨before, rest, List.append_assoc _ _ _⟩

end Spacing

end Bundler
