import Bundler.Proofs.Build.Written
import Bundler.Proofs.Lexer.LongestMatch

/-!
# Legal names

Any text is made into a name that a binding can have.  Its characters are turned
into characters of names one by one, and an underscore is put in front of what
is no legal name yet: of no name, of one that starts with a digit and of a
reserved word.  No reserved word starts with an underscore, so any number of
them in front keep a name legal.
-/

namespace Bundler

namespace CharClass

/-- Only digits may continue a name but not start it. -/
theorem isNamePart_iff {c : Char} :
    isNamePart c = true ↔ isNameStart c = true ∨ isDigit c = true := by
  simp only [isNamePart, isNameStart, isAsciiNamePart, Bool.or_eq_true]
  exact or_right_comm

theorem isDigit_eq_false_of_isNameStart {c : Char}
    (hstart : isNameStart c = true) : isDigit c = false := by
  refine Bool.eq_false_iff.mpr fun hdigit => ?_
  have hascii : isAscii c = true :=
    isAscii_of_isAsciiNamePart (Bool.or_eq_true _ _ ▸ .inr hdigit)
  rw [isDigit, Bool.and_eq_true, decide_eq_true_eq, decide_eq_true_eq] at hdigit
  rcases toNat_of_isAsciiNameStart
    (isAsciiNameStart_of_isNameStart hstart hascii) with rfl | ⟨hlow, -⟩
  · exact absurd hdigit (by decide)
  · exact absurd (Nat.le_trans hlow (Char.le_def.mp hdigit.2)) (by decide)

theorem isNameStart_of_isNamePart {c : Char} (hpart : isNamePart c = true) :
    isNameStart c = !isDigit c := by
  cases hdigit : isDigit c with
  | false =>
      exact (isNamePart_iff.mp hpart).resolve_right (Bool.eq_false_iff.mp hdigit)
  | true =>
      refine Bool.eq_false_iff.mpr fun hstart => ?_
      rw [isDigit_eq_false_of_isNameStart hstart] at hdigit
      cases hdigit

theorem isNamePart_toUpper {c : Char} (hpart : isAsciiNamePart c = true) :
    isNamePart c.toUpper = true := by
  have hletters : ∀ code < 128, isAsciiNamePart (Char.ofNat code) = true →
      isNamePart (Char.ofNat code).toUpper = true := by
    decide
  have hascii := isAscii_of_isAsciiNamePart hpart
  rw [← Char.ofNat_toNat c] at hpart ⊢
  exact hletters c.toNat (of_decide_eq_true hascii) hpart

end CharClass

namespace Identifier

open CharClass

/-! ### Characters -/

/-- Whatever stands in a text, it is written in characters of names. -/
theorem all_isNamePart_replaceChars (afterHyphen : Bool) (text : List Char) :
    (replaceChars afterHyphen text).all isNamePart = true := by
  have hshown : ∀ c, isNamePart (if isNamePart c then c else '_') = true := by
    intro c
    split
    · assumption
    · decide
  fun_induction replaceChars afterHyphen text with
  | case1 => decide
  | case2 => decide
  | case3 afterHyphen text ih => exact ih
  | case4 afterHyphen c text hhyphen hcapital ih =>
      simp only [Bool.and_eq_true] at hcapital
      rw [List.all_cons, isNamePart_toUpper hcapital.1.2, ih]
      rfl
  | case5 c text hhyphen hcapital shown ih =>
      rw [List.all_cons, List.all_cons, hshown, ih]
      rfl
  | case6 afterHyphen c text hhyphen hcapital shown hnone ih =>
      rw [List.all_cons, hshown, ih]
      rfl

/-- Characters of names are not replaced. -/
theorem replaceChars_eq_self {text : List Char}
    (hparts : text.all isNamePart = true) : replaceChars false text = text := by
  induction text with
  | nil => rfl
  | cons c text ih =>
      rw [List.all_cons, Bool.and_eq_true] at hparts
      have hhyphen : c ≠ '-' := by
        rintro rfl
        exact absurd hparts.1 (by decide)
      simp [replaceChars, hhyphen, hparts.1, ih hparts.2]

/-! ### Names -/

theorem isReserved_iff {name : String} :
    isReserved name = true ↔ name ∈ reservedWords ++ globalNames := by
  rw [isReserved, Bool.or_eq_true, List.contains_iff_mem, List.contains_iff_mem,
    List.mem_append]

theorem isLegal_iff {name : String} :
    isLegal name = true ↔
      (∃ first rest, name.toList = first :: rest ∧ isNameStart first = true ∧
        rest.all isNamePart = true) ∧ name ∉ reservedWords ++ globalNames := by
  rw [isLegal, Bool.and_eq_true, Bool.not_eq_true', Bool.eq_false_iff, Ne,
    isReserved_iff, isName]
  refine and_congr_left fun _ => ?_
  cases name.toList with
  | nil =>
      refine ⟨Bool.noConfusion, ?_⟩
      rintro ⟨_, _, hnone, -⟩
      cases hnone
  | cons first rest =>
      rw [Bool.and_eq_true]
      constructor
      · exact fun hname => ⟨first, rest, rfl, hname⟩
      · rintro ⟨_, _, ⟨⟩, hname⟩
        exact hname

theorem all_isNamePart_of_isLegal {name : String}
    (hlegal : isLegal name = true) : name.toList.all isNamePart = true := by
  obtain ⟨⟨first, rest, hname, hfirst, hrest⟩, -⟩ := isLegal_iff.mp hlegal
  rw [hname, List.all_cons, isNamePart_of_isNameStart hfirst, hrest]
  rfl

/-- A key word that is a legal name can name a binding everywhere. -/
theorem isUnreserved_of_isLegal {keyword : Keyword}
    (hlegal : isLegal keyword.text = true) : keyword.isUnreserved = true := by
  revert hlegal
  cases keyword <;> decide

/-- Among the texts in characters of names, the names are those that are not empty
and do not start as a number does. -/
theorem isName_of_all_isNamePart {name : String}
    (hparts : name.toList.all isNamePart = true) :
    isName name = !(match name.toList with
      | [] => true
      | first :: _ => isDigit first) := by
  rw [isName]
  cases hname : name.toList with
  | nil => rfl
  | cons first rest =>
      rw [hname, List.all_cons, Bool.and_eq_true] at hparts
      simp only [hparts.2, Bool.and_true]
      exact isNameStart_of_isNamePart hparts.1

theorem isReserved_underscore (name : String) :
    isReserved ("_" ++ name) = false := by
  have hfirst : (reservedWords ++ globalNames).all
      (·.toList.head? ≠ some '_') = true := by
    decide
  refine Bool.eq_false_iff.mpr fun hreserved => ?_
  have hother := of_decide_eq_true
    (List.all_eq_true.mp hfirst _ (isReserved_iff.mp hreserved))
  rw [String.toList_append] at hother
  exact hother rfl

theorem isLegal_underscore {name : String}
    (hparts : name.toList.all isNamePart = true) :
    isLegal ("_" ++ name) = true := by
  have hname : isName ("_" ++ name) = true := by
    rw [isName, String.toList_append]
    exact hparts
  rw [isLegal, hname, isReserved_underscore]
  rfl

/-- A text that is no legal name in characters of names is one behind an
underscore. -/
theorem ofText_eq (text : String) :
    ofText text =
      let name := String.ofList (replaceChars false text.toList)
      if isLegal name then name else "_" ++ name := by
  have hparts := all_isNamePart_replaceChars false text.toList
  rw [← String.toList_ofList (l := replaceChars false text.toList)] at hparts
  rw [ofText]
  dsimp only
  rw [isLegal, isName_of_all_isNamePart hparts, ← Bool.not_or]
  cases (_ || isReserved _) <;> rfl

theorem isLegal_ofText (text : String) : isLegal (ofText text) = true := by
  rw [ofText_eq]
  dsimp only
  split
  · assumption
  · apply isLegal_underscore
    rw [String.toList_ofList]
    exact all_isNamePart_replaceChars false text.toList

theorem ofText_of_isLegal {name : String} (hlegal : isLegal name = true) :
    ofText name = name := by
  rw [ofText_eq, replaceChars_eq_self (all_isNamePart_of_isLegal hlegal),
    String.ofList_toList]
  exact if_pos hlegal

/-! ### Underscores in front -/

theorem isLegal_iterate_underscore {name : String}
    (hlegal : isLegal name = true) (count : Nat) :
    isLegal (("_" ++ ·)^[count] name) = true := by
  induction count with
  | zero => exact hlegal
  | succ count ih =>
      rw [Function.iterate_succ_apply']
      exact isLegal_underscore (all_isNamePart_of_isLegal ih)

/-- Looking for a free name does not lead away from the legal ones. -/
theorem isLegal_freeName {name : String} (hlegal : isLegal name = true)
    (taken : List String) : isLegal (freeName taken name) = true := by
  obtain ⟨count, -, hname, -⟩ := freeName_spec taken name
  rw [hname]
  exact isLegal_iterate_underscore hlegal count

/-- Every text is made into a legal name: it starts and goes on with characters of
names and is not reserved, and if it is a key word, then one that can name a
binding.  Just the legal names stay as they are, so making a name once more
changes nothing.  With any number of underscores in front it is still legal, and
so is the free name that is looked for from it, whatever names are taken. -/
theorem ofText_usable (text : String) :
    isLegal (ofText text) = true ∧
    (∃ first rest, (ofText text).toList = first :: rest ∧
      isNameStart first = true ∧ rest.all isNamePart = true) ∧
    ofText text ∉ reservedWords ++ globalNames ∧
    (Keyword.ofText? (ofText text)).all Keyword.isUnreserved = true ∧
    (ofText text = text ↔ isLegal text = true) ∧
    ofText (ofText text) = ofText text ∧
    (∀ count, isLegal (("_" ++ ·)^[count] (ofText text)) = true) ∧
    ∀ taken, isLegal (freeName taken (ofText text)) = true := by
  have hlegal := isLegal_ofText text
  obtain ⟨hname, hreserved⟩ := isLegal_iff.mp hlegal
  refine ⟨hlegal, hname, hreserved, ?_,
    ⟨fun hsame => hsame ▸ hlegal, ofText_of_isLegal⟩, ofText_of_isLegal hlegal,
    isLegal_iterate_underscore hlegal, isLegal_freeName hlegal⟩
  rw [Option.all_eq_true]
  intro keyword hkeyword
  rw [← Keyword.text_of_ofText? hkeyword] at hlegal
  exact isUnreserved_of_isLegal hlegal

/-- Hyphens of which no capital letter can be made, a number and a reserved word. -/
example :
    ofText "-é--" = "_é_" ∧ ofText "2d-array" = "_2dArray" ∧
      ofText "class" = "_class" ∧ ofText "as" = "as" := by
  decide

end Identifier

end Bundler
