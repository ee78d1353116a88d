import Bundler.Proofs.Lexer.Gaps
import Bundler.Source.Escape

/-!
# Where escapes are malformed

Decoding goes through a text item by item, and an item is read alike where the
text is cut off somewhere behind it.  So all that stands in front of a failure
can be decoded, and at a failure there is a backslash or a line terminator that
is not allowed, of one byte in either case.
-/

namespace Bundler

namespace Escape

/-- Digits of a number of places are read alike whatever comes behind them. -/
theorem exists_of_hexDigits {count value found : Nat} {text after : List Char}
    (h : hexDigits count value text = some (found, after)) :
    ∃ taken, text = taken ++ after ∧ taken.length = count ∧ ∀ other,
      hexDigits count value (taken ++ other) = some (found, other) := by
  fun_induction hexDigits count value text with
  | case1 value text =>
      cases h
      exact ⟨[], rfl, rfl, fun _ => rfl⟩
  | case2 => cases h
  | case3 count value c cs digit hdigit ih =>
      obtain ⟨taken, rfl, hlength, hread⟩ := ih h
      refine ⟨c :: taken, rfl, by simp [hlength], fun other => ?_⟩
      rw [List.cons_append, hexDigits, hdigit]
      exact hread other
  | case4 => cases h

theorem exists_of_bracedDigits {digit : Bool} {value found : Nat}
    {text after : List Char}
    (h : bracedDigits digit value text = some (found, after)) :
    ∃ taken, text = taken ++ after ∧ ∀ other,
      bracedDigits digit value (taken ++ other) = some (found, other) := by
  fun_induction bracedDigits digit value text with
  | case2 digit value cs hvalue =>
      cases h
      refine ⟨['}'], rfl, fun other => ?_⟩
      rw [List.singleton_append, bracedDigits, if_pos rfl, if_pos hvalue]
  | case4 digit value c cs hbrace d hdigit hbound ih =>
      obtain ⟨taken, rfl, hread⟩ := ih h
      refine ⟨c :: taken, rfl, fun other => ?_⟩
      rw [List.cons_append, bracedDigits, if_neg hbrace, hdigit]
      exact (if_pos hbound).trans (hread other)
  | _ => cases h

theorem exists_of_unicode {text after : List Char} {found : Nat}
    (h : unicode text = some (found, after)) :
    ∃ taken, text = taken ++ after ∧ ∀ other,
      unicode (taken ++ other) = some (found, other) := by
  rw [unicode.eq_def] at h
  split at h
  · obtain ⟨taken, rfl, hread⟩ := exists_of_bracedDigits h
    exact ⟨'{' :: taken, rfl, hread⟩
  · rename_i hopen
    obtain ⟨taken, rfl, hlength, hread⟩ := exists_of_hexDigits h
    refine ⟨taken, rfl, fun other => ?_⟩
    obtain ⟨c, cs, rfl⟩ := List.exists_cons_of_length_eq_add_one hlength
    rw [List.cons_append, unicode]
    · exact hread other
    · intro rest hcons
      rw [(List.cons.inj hcons).1] at hopen
      exact hopen _ rfl

theorem exists_of_lowSurrogate? {text after : List Char} {found : Nat}
    (h : lowSurrogate? text = some (found, after)) :
    ∃ taken, text = taken ++ after ∧ ∀ other,
      lowSurrogate? (taken ++ other) = some (found, other) := by
  rw [lowSurrogate?.eq_def] at h
  split at h
  · obtain ⟨hunicode, hlow⟩ := Option.filter_eq_some_iff.mp h
    obtain ⟨taken, rfl, hread⟩ := exists_of_unicode hunicode
    refine ⟨'\\' :: 'u' :: taken, rfl, fun other => ?_⟩
    exact Option.filter_eq_some_iff.mpr ⟨hread other, hlow⟩
  · cases h

/-- Where no low surrogate stands, none does if the text is cut off. -/
theorem lowSurrogate?_of_prefix {text cut : List Char}
    (h : lowSurrogate? text = none) (hcut : cut <+: text) :
    lowSurrogate? cut = none := by
  rw [Option.eq_none_iff_forall_ne_some]
  rintro ⟨found, after⟩ hfound
  obtain ⟨more, rfl⟩ := hcut
  obtain ⟨taken, rfl, hread⟩ := exists_of_lowSurrogate? hfound
  rw [List.append_assoc, hread] at h
  cases h

theorem exists_of_octalDigits {more value found : Nat} {text after : List Char}
    (h : octalDigits more value text = (found, after)) :
    ∃ taken, text = taken ++ after ∧ ∀ cut, cut <+: after →
      octalDigits more value (taken ++ cut) = (found, cut) := by
  fun_induction octalDigits more value text with
  | case1 value text =>
      cases h
      exact ⟨[], rfl, fun cut _ => rfl⟩
  | case2 more value =>
      cases h
      refine ⟨[], rfl, fun cut hcut => ?_⟩
      rw [List.prefix_nil.mp hcut]
      rfl
  | case3 more value c cs hdigit ih =>
      obtain ⟨taken, rfl, hread⟩ := ih h
      refine ⟨c :: taken, rfl, fun cut hcut => ?_⟩
      rw [List.cons_append, octalDigits, if_pos hdigit]
      exact hread cut hcut
  | case4 more value c cs hdigit =>
      cases h
      refine ⟨[], rfl, fun cut hcut => ?_⟩
      rcases List.prefix_cons_iff.mp hcut with rfl | ⟨rest, rfl, _⟩
      · rfl
      · exact if_neg hdigit

/-- A line terminator behind a backslash goes with it, alone if it is not the
first of a pair. -/
theorem escaped_line {c : Char} {cs : List Char}
    (hline : CharClass.isLineTerminator c = true)
    (hsingle : c = '\r' → cs.head? ≠ some '\n') :
    escaped (c :: cs) = .read [] cs := by
  rw [escaped, if_pos hline]
  rintro rest hreturn rfl
  exact hsingle hreturn rfl

theorem escaped_letter {c meant : Char} (hletter : letter? c = some meant)
    (cs : List Char) : escaped (c :: cs) = .read [meant] cs := by
  rw [letter?.eq_def] at hletter
  split at hletter <;> cases hletter <;> rfl

theorem escaped_octal {c : Char} (hdigit : CharClass.isOctalDigit c = true)
    (cs : List Char) :
    escaped (c :: cs) =
      .read [scalar (octalDigits (if c ≤ '3' then 2 else 1)
        (c.toNat - '0'.toNat) cs).1] (octalDigits (if c ≤ '3' then 2 else 1)
        (c.toNat - '0'.toNat) cs).2 := by
  have hline : ¬ CharClass.isLineTerminator c = true := by
    intro hline
    simp only [CharClass.isLineTerminator, Bool.or_eq_true, beq_iff_eq] at hline
    rcases hline with ((rfl | rfl) | rfl) | rfl <;> cases hdigit
  have hletter : letter? c = none := by
    rw [letter?.eq_def]
    split <;> first | rfl | cases hdigit
  rw [escaped, if_neg hline]
  · simp [hletter, hdigit]
  · rintro rest rfl
    exact absurd rfl hline

theorem escaped_byte (cs : List Char) :
    escaped ('x' :: cs) =
      match hexDigits 2 0 cs with
      | some (value, rest) => .read [scalar value] rest
      | none => .fault :=
  rfl

theorem escaped_unicode (cs : List Char) :
    escaped ('u' :: cs) =
      match unicode cs with
      | none => .fault
      | some (value, rest) =>
          if isHighSurrogate value then
            match lowSurrogate? rest with
            | some (low, rest) => .read [ofPair value low] rest
            | none => .read [replacement] rest
          else .read [scalar value] rest :=
  rfl

/-- A character means itself behind a backslash if it means nothing else
there. -/
theorem escaped_other {c : Char}
    (hline : CharClass.isLineTerminator c = false) (hletter : letter? c = none)
    (hdigit : CharClass.isOctalDigit c = false) (hbyte : c ≠ 'x')
    (hpoint : c ≠ 'u') (cs : List Char) :
    escaped (c :: cs) = .read [c] cs := by
  rw [escaped, hline]
  · simp [hletter, hdigit, hbyte, hpoint]
  · rintro rest rfl
    cases hline

/-- What a backslash opens is read alike where the text is cut off behind it. -/
theorem exists_of_escaped {text meant after : List Char}
    (h : escaped text = .read meant after) :
    ∃ taken, text = taken ++ after ∧ ∀ cut, cut <+: after →
      escaped (taken ++ cut) = .read meant cut := by
  rw [escaped.eq_def] at h
  split at h
  · cases h
  · cases h
    exact ⟨['\r', '\n'], rfl, fun cut _ => rfl⟩
  rename_i c cs hpair
  split at h
  · rename_i hline
    cases h
    refine ⟨[c], rfl, fun cut hcut =>
      escaped_line hline fun hreturn hfeed => ?_⟩
    -- The text goes on with a line feed if the cut does.
    obtain ⟨rest, rfl⟩ := List.head?_eq_some_iff.mp hfeed
    obtain ⟨more, rfl⟩ := hcut
    exact hpair _ hreturn rfl
  rename_i hline
  split at h
  · rename_i letter hletter
    cases h
    exact ⟨[c], rfl, fun cut _ => escaped_letter hletter cut⟩
  rename_i hletter
  split at h
  · rename_i hdigit
    cases h
    obtain ⟨taken, htext, hread⟩ := exists_of_octalDigits
      (Prod.eta (octalDigits (if c ≤ '3' then 2 else 1) _ cs)).symm
    refine ⟨c :: taken, by rw [List.cons_append, ← htext], fun cut hcut => ?_⟩
    rw [List.cons_append, escaped_octal hdigit, hread cut hcut]
  rename_i hdigit
  split at h
  · rename_i hbyte
    subst hbyte
    split at h
    · rename_i value rest hvalue
      cases h
      obtain ⟨taken, rfl, _, hread⟩ := exists_of_hexDigits hvalue
      refine ⟨'x' :: taken, rfl, fun cut _ => ?_⟩
      rw [List.cons_append, escaped_byte, hread cut]
    · cases h
  rename_i hbyte
  split at h
  · rename_i hpoint
    subst hpoint
    split at h
    · cases h
    rename_i value rest hvalue
    obtain ⟨taken, rfl, hread⟩ := exists_of_unicode hvalue
    split at h
    · rename_i hhigh
      split at h
      · rename_i low behind hlow
        cases h
        obtain ⟨partner, rfl, hpartner⟩ := exists_of_lowSurrogate? hlow
        refine ⟨'u' :: (taken ++ partner), by simp, fun cut _ => ?_⟩
        rw [List.cons_append, List.append_assoc, escaped_unicode, hread]
        simp only [hhigh, hpartner, if_true]
      · rename_i hlow
        cases h
        refine ⟨'u' :: taken, rfl, fun cut hcut => ?_⟩
        rw [List.cons_append, escaped_unicode, hread]
        simp only [hhigh, lowSurrogate?_of_prefix hlow hcut, if_true]
    · rename_i hhigh
      cases h
      refine ⟨'u' :: taken, rfl, fun cut _ => ?_⟩
      rw [List.cons_append, escaped_unicode, hread]
      exact if_neg hhigh
  · rename_i hpoint
    cases h
    exact ⟨[c], rfl, fun cut _ => escaped_other (Bool.eq_false_iff.mpr hline)
      (Option.eq_none_iff_forall_ne_some.mpr hletter)
      (Bool.eq_false_iff.mpr hdigit) hbyte hpoint cut⟩

theorem exists_of_item {lineTerminators : Bool} {text meant after : List Char}
    (h : item lineTerminators text = .read meant after) :
    ∃ taken, text = taken ++ after ∧ ∀ cut, cut <+: after →
      item lineTerminators (taken ++ cut) = .read meant cut := by
  rw [item.eq_def] at h
  split at h
  · cases h
  rename_i c cs
  split at h
  · rename_i hbackslash
    obtain ⟨taken, rfl, hread⟩ := exists_of_escaped h
    refine ⟨c :: taken, rfl, fun cut hcut => ?_⟩
    rw [List.cons_append, item, if_pos hbackslash, hread cut hcut]
  rename_i hbackslash
  split at h
  · cases h
  · rename_i hallowed
    cases h
    refine ⟨[c], rfl, fun cut _ => ?_⟩
    rw [List.singleton_append, item, if_neg hbackslash, if_neg hallowed]

/-- The characters that decoding can stop at. -/
def StopsAt (lineTerminators : Bool) (c : Char) : Prop :=
  c = '\\' ∨ lineTerminators = false ∧ (c = '\n' ∨ c = '\r')

instance (lineTerminators : Bool) (c : Char) :
    Decidable (StopsAt lineTerminators c) :=
  inferInstanceAs (Decidable (_ ∨ _))

theorem StopsAt.utf8Size {lineTerminators : Bool} {c : Char}
    (h : StopsAt lineTerminators c) : c.utf8Size = 1 := by
  rcases h with rfl | ⟨_, rfl | rfl⟩ <;> rfl

theorem exists_of_fault {lineTerminators : Bool} {text : List Char}
    (h : item lineTerminators text = .fault) :
    ∃ c cs, text = c :: cs ∧ StopsAt lineTerminators c := by
  rw [item.eq_def] at h
  split at h
  · cases h
  · rename_i c cs
    refine ⟨c, cs, rfl, ?_⟩
    split at h
    · rename_i hbackslash
      exact .inl hbackslash
    · split at h
      · rename_i hline
        exact .inr (by simpa using hline)
      · cases h

theorem decodeAll_of_finished {lineTerminators : Bool} :
    decodeAll lineTerminators [] = .ok [] := by
  rw [decodeAll]
  rfl

/-- What is in front of an item decodes to what it means. -/
theorem decodeAll_of_read {lineTerminators : Bool}
    {text meant after decoded : List Char}
    (hread : item lineTerminators text = .read meant after)
    (hafter : decodeAll lineTerminators after = .ok decoded) :
    decodeAll lineTerminators text = .ok (meant ++ decoded) := by
  rw [decodeAll]
  split
  · rename_i hother
    rw [hread] at hother
    cases hother
  · rename_i hother
    rw [hread] at hother
    cases hother
  · rename_i hother
    rw [hread] at hother
    cases hother
    rw [hafter]

/-- In front of the place where decoding stops everything can be decoded. -/
theorem exists_of_decodeAll {lineTerminators : Bool} {text rest : List Char}
    (h : decodeAll lineTerminators text = .error rest) :
    ∃ front decoded, text = front ++ rest ∧
      decodeAll lineTerminators front = .ok decoded ∧
      ∃ c cs, rest = c :: cs ∧ StopsAt lineTerminators c := by
  fun_induction decodeAll lineTerminators text with
  | case1 => cases h
  | case2 text hfault =>
      cases h
      exact ⟨[], [], rfl, decodeAll_of_finished, exists_of_fault hfault⟩
  | case3 => cases h
  | case4 text meant after hread found hfound ih =>
      cases h
      obtain ⟨front, decoded, rfl, hfront, hstops⟩ := ih hfound
      obtain ⟨taken, rfl, hcut⟩ := exists_of_item hread
      have hitem := hcut front (List.prefix_append front _)
      exact ⟨taken ++ front, meant ++ decoded, by simp,
        decodeAll_of_read hitem hfront, hstops⟩

/-- An error points at a character that decoding can stop at, and the text in
front of it can be decoded. -/
theorem exists_of_decode {lineTerminators : Bool} {text : List Char}
    {offset : Nat} (h : decode lineTerminators text = .error offset) :
    ∃ front c back, text = front ++ c :: back ∧
      offset = Text.byteLength front ∧ StopsAt lineTerminators c ∧
      ∃ decoded, decode lineTerminators front = .ok decoded := by
  rw [decode] at h
  split at h
  · cases h
  · rename_i rest hrest
    cases h
    obtain ⟨front, decoded, rfl, hfront, c, back, rfl, hstops⟩ :=
      exists_of_decodeAll hrest
    refine ⟨front, c, back, rfl, ?_, hstops, decoded, ?_⟩
    · rw [Text.byteLength_append, Nat.add_sub_cancel]
    · rw [decode, hfront]

end Escape

/-- The character that an error about the body of a literal points at is in the
text. -/
theorem Token.IsIn.fault {text : List Char} {token : Token}
    (htoken : token.IsIn text) {before body behind : List Char}
    (hbody : token.text.toList = before ++ (body ++ behind))
    {lineTerminators : Bool} {offset : Nat}
    (hfault : Escape.decode lineTerminators body = .error offset) {start : Nat}
    (hstart : start = token.span.start + Text.byteLength before + offset) :
    Span.IsIn text ⟨start, start + 1⟩ := by
  obtain ⟨front, back, htext, hspan, _⟩ := htoken
  obtain ⟨read, c, rest, rfl, rfl, hstops, _⟩ := Escape.exists_of_decode hfault
  rw [hbody] at htext
  have hfront : start = Text.byteLength (front ++ before ++ read) := by
    rw [hstart, hspan, Text.byteLength_append, Text.byteLength_append]
  refine ⟨⟨front ++ before ++ read, c :: rest ++ behind ++ back, ?_, hfront⟩,
    ⟨front ++ before ++ read ++ [c], rest ++ behind ++ back, ?_, ?_⟩,
    Nat.le_succ start⟩
  · simp [htext]
  · simp [htext]
  · rw [Text.byteLength_append, ← hfront, Text.byteLength, hstops.utf8Size]
    rfl

end Bundler
