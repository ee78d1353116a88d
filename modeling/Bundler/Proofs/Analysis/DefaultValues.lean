import Bundler.Proofs.Analysis.References
import Bundler.Proofs.Graph.Reachable
import Bundler.Proofs.Lexer.WordSearch
import Bundler.Proofs.Parser.DefaultExports

/-!
# Where the text of a default export starts

The text of a default export is meant to be what stands behind the key word `default`
without the white space in front of it.  The key word is looked for as text, though, so
it is found in a comment between the two key words if one holds it.
-/

namespace Bundler

open TokenStream

/-! ### Tokens and the gaps in front of them -/

/-- Trimming takes white space, line terminators and one more character, which a name
may start with. -/
theorem CharClass.eq_of_isUnicodeSpace {c : Char} (hspace : isUnicodeSpace c = true)
    (hwhite : isWhitespace c = false) (hline : isLineTerminator c = false) :
    c = '\u0085' := by
  have hchar (d : Char) : (c == d) = false → c.toNat ≠ d.toNat :=
    fun hne heq => absurd (Char.toNat_inj.mp heq) (by simpa using hne)
  simp only [isLineTerminator, Bool.or_eq_false_iff] at hline
  obtain ⟨⟨⟨hfeed, hreturn⟩, hseparator⟩, hparagraph⟩ := hline
  have hfeed := hchar _ hfeed
  have hreturn := hchar _ hreturn
  have hseparator := hchar _ hseparator
  have hparagraph := hchar _ hparagraph
  apply Char.toNat_inj.mp
  simp only [isUnicodeSpace, isWhitespace, Bool.or_eq_true, Bool.or_eq_false_iff,
    Bool.and_eq_true, Bool.and_eq_false_iff, decide_eq_true_eq, decide_eq_false_iff_not,
    beq_iff_eq, beq_eq_false_iff_ne] at hspace hwhite
  simp at hfeed hreturn hseparator hparagraph ⊢
  omega

namespace Trivia

/-- What is not skipped is neither white space nor a line terminator. -/
theorem head_skip (place : Place) (offset : Nat) (text : List Char) :
    ∀ c ∈ (skip place offset text).rest.head?,
      CharClass.isWhitespace c = false ∧ CharClass.isLineTerminator c = false := by
  fun_induction skip place offset text with
  | case1 | case2 | case3 => rintro _ ⟨⟩
  | case8 offset c cs _ _ hline hspace =>
      rintro _ ⟨⟩
      exact ⟨Bool.eq_false_iff.mpr hspace, Bool.eq_false_iff.mpr hline⟩
  | _ => assumption

end Trivia

namespace TokenStream

variable {text : List Char} {place : Nat}

theorem Reaches.isIn (h : Reaches text place) :
    (Cursor.mk place (Text.dropBytes place text)).IsIn text := by
  obtain ⟨stream, hstream, rfl⟩ := h
  have hcursor := (hstream.cursorAt_isIn hstream.lexes.consumed_le).1
  rwa [hstream.cursorAt_consumed] at hcursor

/-- From a place of a text on a gap is skipped, and tokens are read from the rest. -/
structure Skips (text : List Char) (place : Nat) (gap : List Char)
    (comments : List Comment) (rest : List Char) : Prop where
  split : Text.dropBytes place text = gap ++ rest
  spacing : Spacing rest place gap comments
  head : ∀ c ∈ rest.head?,
    CharClass.isWhitespace c = false ∧ CharClass.isLineTerminator c = false
  kind : ∀ mode ≠ .templateContinue,
    (tokenAt text mode place).kind = (Lexeme.read mode rest).kind
  start : ∀ mode ≠ .templateContinue,
    (tokenAt text mode place).span.start = place + Text.byteLength gap
  stop : ∀ mode ≠ .templateContinue, (tokenAt text mode place).span.stop =
    place + Text.byteLength gap +
      Text.byteLength (tokenAt text mode place).text.toList
  token : ∀ mode ≠ .templateContinue,
    (tokenAt text mode place).text.toList ++
      Text.dropBytes (tokenAt text mode place).span.stop text = rest

theorem Reaches.exists_skips (h : Reaches text place) :
    ∃ gap comments rest, Skips text place gap comments rest := by
  have hskip := Trivia.read_append place (Text.dropBytes place text)
  have hgap := Trivia.gap_read place (Text.dropBytes place text)
  have hhead := Trivia.head_skip .between place (Text.dropBytes place text)
  have hlexed (mode : LexMode) (hmode : mode ≠ .templateContinue) := lexToken_eq hmode
    ⟨place, Text.dropBytes place text⟩
  rw [← Trivia.read] at hhead
  dsimp only at hlexed
  generalize Trivia.read place (Text.dropBytes place text) = trivia
    at hskip hgap hhead hlexed
  refine ⟨trivia.taken, trivia.comments, trivia.rest, hskip.symm, hgap, hhead,
    fun mode hmode => ?_, fun mode hmode => ?_, fun mode hmode => ?_,
    fun mode hmode => ?_⟩
  · rw [tokenAt, hlexed mode hmode]
    rfl
  · rw [tokenAt, hlexed mode hmode]
    rfl
  · rw [tokenAt, hlexed mode hmode, Lexed.ofLexeme, String.toList_ofList]
    rfl
  · have hafter := congrArg Cursor.rest (h.isIn.lexToken mode).eq_dropBytes
    dsimp only at hafter
    rw [tokenAt, stop_lexToken, ← hafter, hlexed mode hmode, Lexed.ofLexeme,
      String.toList_ofList]
    exact Lexeme.text_read mode trivia.rest

/-- A key word stands behind a gap. -/
theorem Reaches.exists_gap_keyword (h : Reaches text place) {word : Keyword}
    (hkind : (tokenAt text .standard place).kind = .keyword word) :
    ∃ gap comments,
      Text.dropBytes place text = gap ++ (word.text.toList ++
        Text.dropBytes (tokenAt text .standard place).span.stop text) ∧
      (tokenAt text .standard place).span.start = place + Text.byteLength gap ∧
      (tokenAt text .standard place).span.stop =
        place + Text.byteLength gap + Text.byteLength word.text.toList ∧
      Spacing (word.text.toList ++
        Text.dropBytes (tokenAt text .standard place).span.stop text) place gap
        comments := by
  have hmode : LexMode.standard ≠ .templateContinue := by decide
  have htext : (tokenAt text .standard place).text = word.text := (lexToken_keyword hkind).1
  obtain ⟨gap, comments, rest, hskips⟩ := h.exists_skips
  have htoken := hskips.token _ hmode
  have hstop := hskips.stop _ hmode
  rw [htext] at htoken hstop
  subst htoken
  exact ⟨gap, comments, hskips.split, hskips.start _ hmode, hstop, hskips.spacing⟩

end TokenStream

/-! ### Looking for the key word -/

namespace Interface

open Text

section Header

variable {text front header behind between rest : List Char}
  {stop start valueStop : Nat}

theorem byteLength_defaultSlot : byteLength defaultSlot.toList = 7 := by decide

theorem not_separates_of_mem_defaultSlot :
    ∀ c ∈ defaultSlot.toList, ¬ CharClass.separates c := by
  simp [CharClass.separates, defaultSlot]
  decide

/-- What is looked through goes up to the value. -/
theorem slice_header (htext : text = front ++ (header ++ (defaultSlot.toList ++ behind)))
    (hstart : byteLength front + byteLength header + 7 ≤ start) :
    slice text ⟨byteLength front, start⟩ =
      header ++ (defaultSlot.toList ++
        takeBytes (start - (byteLength front + byteLength header + 7)) behind) := by
  have hslice := slice_append_from front (header ++ defaultSlot.toList) behind
    (show _ ≤ start by rw [byteLength_append, byteLength_defaultSlot]; omega)
  rw [byteLength_append, byteLength_defaultSlot, List.append_assoc, List.append_assoc,
    ← Nat.add_assoc] at hslice
  rw [htext]
  exact hslice

/-- If the word is found at the key word, white space behind this is left out up to the
first token. -/
theorem defaultValueStart_of_find?
    (htext : text = front ++ (header ++ (defaultSlot.toList ++ (between ++ rest))))
    (hfind : ∀ tail, find? defaultSlot.toList (header ++ (defaultSlot.toList ++ tail)) =
      some (byteLength header))
    (hstart : byteLength front + byteLength header + 7 + byteLength between ≤ start)
    (hrest : ∀ c ∈ rest.head?, CharClass.isUnicodeSpace c = true →
      start = byteLength front + byteLength header + 7 + byteLength between) :
    defaultValueStart text ⟨byteLength front, stop⟩ ⟨start, valueStop⟩ =
      byteLength front + byteLength header + 7 +
        byteLength (between.takeWhile CharClass.isUnicodeSpace) := by
  have hkeyword : byteLength front + byteLength header + 7 ≤ start := by omega
  have hvalue := slice_append_from (front ++ (header ++ defaultSlot.toList)) between rest
    (show _ ≤ start by simp only [byteLength_append, byteLength_defaultSlot]; omega)
  simp only [byteLength_append, byteLength_defaultSlot, List.append_assoc,
    ← Nat.add_assoc] at hvalue
  rw [← htext] at hvalue
  have hspace : (between ++ takeBytes (start - (byteLength front + byteLength header +
      7 + byteLength between)) rest).takeWhile CharClass.isUnicodeSpace =
      between.takeWhile CharClass.isUnicodeSpace := by
    refine takeWhile_append fun c hc => Bool.eq_false_iff.mpr fun hspace => ?_
    obtain ⟨hhead, hcount⟩ := head?_takeBytes hc
    exact hcount (by rw [hrest c hhead hspace, Nat.sub_self])
  have hsize : defaultSlot.utf8ByteSize = 7 := rfl
  rw [defaultValueStart, slice_header htext hkeyword, hfind]
  dsimp only
  rw [hsize, hvalue, hspace]

/-- If the word is found in front of the key word, the key word is not left out. -/
theorem defaultValueStart_of_infix
    (htext : text = front ++ (header ++ (defaultSlot.toList ++ behind)))
    (hheader : defaultSlot.toList <:+: header)
    (hstart : byteLength front + byteLength header + 7 ≤ start) :
    defaultValueStart text ⟨byteLength front, stop⟩ ⟨start, valueStop⟩ ≤
      byteLength front + byteLength header := by
  obtain ⟨tail, htail⟩ : ∃ tail,
      takeBytes (start - (byteLength front + byteLength header + 7)) behind = tail :=
    ⟨_, rfl⟩
  obtain ⟨early, late, hearly⟩ := hheader
  obtain ⟨offset, hoffset, hfind⟩ := exists_find?_le defaultSlot.toList early
    (late ++ (defaultSlot.toList ++ tail))
  simp only [← List.append_assoc] at hfind
  rw [hearly, List.append_assoc] at hfind
  obtain ⟨left, right, hsplit, rfl⟩ := exists_of_find? hfind
  -- What is found ends in front of the key word.
  obtain ⟨middle, rfl, -⟩ : ∃ middle, header = left ++ defaultSlot.toList ++ middle ∧
      right = middle ++ (defaultSlot.toList ++ tail) := by
    refine exists_append_of_byteLength_le (by rw [List.append_assoc, hsplit]) ?_
    rw [← hearly]
    simp only [byteLength_append]
    omega
  have hvalue := slice_append_from (front ++ (left ++ defaultSlot.toList))
    (middle ++ defaultSlot.toList) behind (show _ ≤ start by
      simp only [byteLength_append, byteLength_defaultSlot] at hstart ⊢; omega)
  have hsize : defaultSlot.utf8ByteSize = 7 := rfl
  rw [defaultValueStart, slice_header htext hstart, htail, hfind]
  dsimp only
  simp only [byteLength_append, byteLength_defaultSlot, List.append_assoc,
    ← Nat.add_assoc] at hvalue htext
  rw [← htext] at hvalue
  simp only [hsize, byteLength_append, byteLength_defaultSlot, List.append_assoc, hvalue]
  rw [takeWhile_append (by rintro c ⟨⟩; decide)]
  have hle := byteLength_takeWhile_le CharClass.isUnicodeSpace middle
  omega

/-- Behind `export` and a gap that does not hold the word, the key word is found. -/
theorem find?_defaultSlot {gap : List Char} (hgap : ¬ defaultSlot.toList <:+: gap)
    (hlast : ∀ c ∈ gap.getLast?, c ∉ defaultSlot.toList) (tail : List Char) :
    find? defaultSlot.toList
        ("export".toList ++ gap ++ (defaultSlot.toList ++ tail)) =
      some (byteLength ("export".toList ++ gap)) := by
  have hword : defaultSlot.toList = 'd' :: "efault".toList := rfl
  rw [List.append_assoc, hword, find?_append_of_not_mem (by decide), ← hword,
    find?_append hgap hlast, find?_of_isPrefixOf (List.prefix_append _ _), byteLength_append]
  rfl

end Header

/-- The key words of a default export in a text: `export`, a gap with comments, and
`default`. -/
structure HasHeader (text : List Char) (start keyword : Nat)
    (comments : List Comment) : Prop where
  exportWord : slice text ⟨start, start + 6⟩ = "export".toList
  gap : IsGap text (start + 6) keyword comments
  defaultWord : slice text ⟨keyword, keyword + 7⟩ = defaultSlot.toList

/-- One of the comments holds the word `default`. -/
def MentionsDefault (text : List Char) (comments : List Comment) : Prop :=
  ∃ comment ∈ comments, defaultSlot.toList <:+: slice text comment.span

/-- The first character of a text from a place on that trimming does not take. -/
def trimmedFrom (text : List Char) (place : Nat) : Nat :=
  place + byteLength ((dropBytes place text).takeWhile CharClass.isUnicodeSpace)

/-- Where the text of a default export starts whose key words and comments are given:
at the first character behind `default` that trimming does not take, but no later than
the first token there, which may be a name that starts with white space.  Of a header
with a comment that holds the word `default` the key word is part of the text. -/
structure StartsValue (text : List Char) (keyword : Nat) (comments : List Comment)
    (start : Nat) : Prop where
  eq_iff : start = min (trimmedFrom text (keyword + 7))
      (tokenAt text .standard (keyword + 7)).span.start ↔
    ¬ MentionsDefault text comments
  le_keyword : MentionsDefault text comments → start ≤ keyword
  name : (tokenAt text .standard (keyword + 7)).span.start <
      trimmedFrom text (keyword + 7) →
    (dropBytes (tokenAt text .standard (keyword + 7)).span.start text).head? =
      some '\u0085'

/-- The pieces that a text with the header of a default export is made of: what stands in
front of it, `export` and a gap, and behind `default` what stands in front of the next
token and the rest. -/
structure HeaderLayout (text : List Char) (keyword : Nat) (front gap : List Char)
    (comments : List Comment) (between rest : List Char) : Prop where
  split : text = front ++ ("export".toList ++ gap ++
    (defaultSlot.toList ++ (between ++ rest)))
  place : keyword = byteLength front + byteLength ("export".toList ++ gap)
  spacing : Spacing (defaultSlot.toList ++ (between ++ rest)) (byteLength front + 6) gap
    comments
  head : ∀ c ∈ rest.head?,
    CharClass.isWhitespace c = false ∧ CharClass.isLineTerminator c = false
  first : (tokenAt text .standard (keyword + 7)).span.start =
    keyword + 7 + byteLength between

namespace HeaderLayout

variable {text front gap between rest : List Char} {keyword stop valueStart valueStop : Nat}
  {comments : List Comment}
  (h : HeaderLayout text keyword front gap comments between rest)
include h

theorem place_eq : keyword = byteLength front + 6 + byteLength gap := by
  rw [h.place, byteLength_append, Nat.add_assoc]
  rfl

theorem hasHeader : HasHeader text (byteLength front) keyword comments := by
  have hexport : byteLength "export".toList = 6 := by decide
  refine ⟨?_, ⟨front ++ "export".toList, gap, defaultSlot.toList ++ (between ++ rest),
    by rw [h.split]; simp, by rw [byteLength_append, hexport], h.place_eq, h.spacing⟩, ?_⟩
  · have hslice := Bundle.slice_append front "export".toList
      (gap ++ (defaultSlot.toList ++ (between ++ rest)))
    rw [hexport] at hslice
    rw [h.split]
    simpa only [List.append_assoc] using hslice
  · have hslice := Bundle.slice_append (front ++ ("export".toList ++ gap))
      defaultSlot.toList (between ++ rest)
    rw [byteLength_append, ← h.place, byteLength_defaultSlot, List.append_assoc,
      List.append_assoc, ← h.split] at hslice
    exact hslice

theorem dropBytes_keyword : dropBytes (keyword + 7) text = between ++ rest := by
  have hbytes : keyword + 7 =
      byteLength (front ++ ("export".toList ++ gap ++ defaultSlot.toList)) := by
    simp only [h.place, byteLength_append, byteLength_defaultSlot, Nat.add_assoc]
  have hpieces : text = front ++ ("export".toList ++ gap ++ defaultSlot.toList) ++
      (between ++ rest) := by
    rw [h.split]
    simp
  rw [hbytes, hpieces, dropBytes_byteLength_append]

theorem dropBytes_first : dropBytes (keyword + 7 + byteLength between) text = rest := by
  have hbytes : keyword + 7 + byteLength between = byteLength
      (front ++ ("export".toList ++ gap ++ (defaultSlot.toList ++ between))) := by
    simp only [h.place, byteLength_append, byteLength_defaultSlot, Nat.add_assoc]
  have hpieces : text = front ++ ("export".toList ++ gap ++
      (defaultSlot.toList ++ between)) ++ rest := by
    rw [h.split]
    simp
  rw [hbytes, hpieces, dropBytes_byteLength_append]

theorem trimmedFrom_eq : trimmedFrom text (keyword + 7) =
    keyword + 7 + byteLength ((between ++ rest).takeWhile CharClass.isUnicodeSpace) := by
  rw [trimmedFrom, h.dropBytes_keyword]

/-- The word is in the gap just if it is in a comment. -/
theorem mentionsDefault_iff :
    MentionsDefault text comments ↔ defaultSlot.toList <:+: gap := by
  have hoccurs := h.spacing.infix_iff not_separates_of_mem_defaultSlot (by decide)
    (front ++ "export".toList) (byteLength_append front "export".toList).symm
  rw [hoccurs, MentionsDefault, h.split]
  simp only [List.append_assoc]

/-- Of what stands behind the next token only a name with white space at its start may
look like white space. -/
theorem head_eq {c : Char} (hc : c ∈ rest.head?)
    (hspace : CharClass.isUnicodeSpace c = true) : rest.head? = some '\u0085' := by
  obtain ⟨hwhite, hline⟩ := h.head c hc
  exact CharClass.eq_of_isUnicodeSpace hspace hwhite hline ▸ hc

/-- The word is found at the key word if it is not in the gap, so all white space is left
out. -/
theorem defaultValueStart_eq (hgap : ¬ defaultSlot.toList <:+: gap)
    (hle : keyword + 7 + byteLength between ≤ valueStart)
    (hname : rest.head? = some '\u0085' →
      valueStart = keyword + 7 + byteLength between) :
    defaultValueStart text ⟨byteLength front, stop⟩ ⟨valueStart, valueStop⟩ =
      keyword + 7 + byteLength (between.takeWhile CharClass.isUnicodeSpace) := by
  have hlast : ∀ c ∈ gap.getLast?, c ∉ defaultSlot.toList := fun c hc hmem =>
    not_separates_of_mem_defaultSlot c hmem
      (h.spacing.separates_of_getLast? ⟨'d', rfl, by decide⟩ c hc)
  rw [h.place] at hle hname ⊢
  exact defaultValueStart_of_find? h.split (find?_defaultSlot hgap hlast) hle
    fun c hc hspace => hname (h.head_eq hc hspace)

/-- Otherwise the key word is not left out. -/
theorem defaultValueStart_le (hgap : defaultSlot.toList <:+: gap)
    (hle : keyword + 7 ≤ valueStart) :
    defaultValueStart text ⟨byteLength front, stop⟩ ⟨valueStart, valueStop⟩ ≤
      keyword := by
  rw [h.place] at hle ⊢
  exact defaultValueStart_of_infix h.split
    (hgap.trans (List.suffix_append _ _).isInfix) hle

theorem startsValue (hle : keyword + 7 + byteLength between ≤ valueStart)
    (hname : rest.head? = some '\u0085' →
      valueStart = keyword + 7 + byteLength between) :
    StartsValue text keyword comments
      (defaultValueStart text ⟨byteLength front, stop⟩ ⟨valueStart, valueStop⟩) := by
  have hbehind : keyword + 7 ≤ valueStart := by omega
  refine ⟨?_, fun hmention =>
    h.defaultValueStart_le (h.mentionsDefault_iff.mp hmention) hbehind, fun hlt => ?_⟩
  · rw [h.first, h.trimmedFrom_eq, Nat.add_min_add_left, ← byteLength_takeWhile_eq_min,
      h.mentionsDefault_iff]
    by_cases hgap : defaultSlot.toList <:+: gap
    · have hearly : defaultValueStart text ⟨byteLength front, stop⟩
          ⟨valueStart, valueStop⟩ ≤ keyword := h.defaultValueStart_le hgap hbehind
      exact iff_of_false (by omega) (not_not_intro hgap)
    · exact iff_of_true (h.defaultValueStart_eq hgap hle hname) hgap
  · rw [h.first, h.trimmedFrom_eq] at hlt
    rw [h.first, h.dropBytes_first]
    obtain ⟨c, hc, hspace⟩ : ∃ c ∈ rest.head?, CharClass.isUnicodeSpace c = true := by
      by_contra hnone
      have hspace : ∀ c ∈ rest.head?, CharClass.isUnicodeSpace c = false :=
        fun c hc => Bool.eq_false_iff.mpr fun hspace => hnone ⟨c, hc, hspace⟩
      rw [takeWhile_append hspace] at hlt
      have hshort := byteLength_takeWhile_le CharClass.isUnicodeSpace between
      omega
    exact h.head_eq hc hspace

end HeaderLayout

end Interface

namespace Program

open Interface Text

variable {source : String} {program : Program} {span : Span} {value : Node}

/-- The text that the header of a default export is looked for in. -/
theorem exists_layout_of_exportDefault (hparse : parse source = .ok program)
    (hmem : .mk span (.exportDefault value) ∈ program.statements) :
    ∃ front keyword gap comments between rest,
      HeaderLayout source.toList keyword front gap comments between rest ∧
      span.start = byteLength front ∧
      keyword + 7 + byteLength between ≤ value.span.start ∧
      (rest.head? = some '\u0085' →
        value.span.start = keyword + 7 + byteLength between) := by
  obtain ⟨stream, after, hstream, hrun⟩ := exists_run_of_parse hparse _ hmem
  have hdisciplined : Parser.Disciplined false
      (Grammar.forSource .module source).statement := inferInstance
  have hrun := Grammar.runs_exportStatement (Grammar.runs_statement.mp
    (hdisciplined.runs hstream hrun))
  have hreach := hrun.reaches_start
  obtain ⟨place, hplace, hspan, hexport, hdefault, hrun⟩ :=
    Grammar.runs_defaultExport hrun
  obtain ⟨hle, hfirst⟩ := Grammar.start_of_runs_defaultExport hrun
  generalize stream.lastEnd = start at hreach hplace hspan hexport
  have hbehindExport : Reaches source.toList place :=
    hplace ▸ Parser.reaches_next hreach .standard
  have hbehindDefault := Parser.reaches_next hbehindExport .standard
  obtain ⟨front, htext, rfl⟩ := hreach.isIn
  obtain ⟨before, _, hbefore, hstart, hstop, -⟩ := hreach.exists_gap_keyword hexport
  obtain ⟨gap, comments, hgap, -, hkeyword, hspacing⟩ :=
    hbehindExport.exists_gap_keyword hdefault
  obtain ⟨between, _, rest, hskips⟩ := hbehindDefault.exists_skips
  have hexportBytes : byteLength Keyword.exportWord.text.toList = 6 := by decide
  have hdefaultBytes : byteLength Keyword.defaultWord.text.toList = 7 := by decide
  have hbytes : byteLength (front ++ before) = byteLength front + byteLength before :=
    byteLength_append front before
  rw [← hplace] at hbefore hstop
  rw [hexportBytes, ← hbytes] at hstop
  clear hplace
  subst hstop
  rw [hdefaultBytes] at hkeyword
  rw [hskips.split] at hspacing hgap
  rw [hkeyword] at hle hfirst hskips
  have hfirstStart := hskips.start .standard (by decide)
  rw [hfirstStart] at hle hfirst
  have hplaced : byteLength (front ++ before) + 6 + byteLength gap =
      byteLength (front ++ before) + byteLength ("export".toList ++ gap) := by
    rw [byteLength_append "export".toList, Nat.add_assoc]
    rfl
  refine ⟨front ++ before, _, gap, comments, between, rest,
    ⟨?_, rfl, hspacing, hskips.head, ?_⟩, ?_, ?_, fun hhead => ?_⟩
  · rw [htext, hbefore, hgap, List.append_assoc, List.append_assoc]
    rfl
  · exact hplaced ▸ hfirstStart
  · rw [hspan, hstart, hbytes]
  · exact hplaced ▸ hle
  · rw [← hplaced]
    refine hfirst ?_
    rw [hskips.kind .slashIsRegex (by decide)]
    obtain ⟨others, rfl⟩ := List.head?_eq_some_iff.mp hhead
    have hread : Lexeme.read .slashIsRegex ('\u0085' :: others) =
        Lexeme.identifier ('\u0085' :: others) := by
      rw [Lexeme.read, if_pos (by decide)]
    rw [hread]
    rcases Lexeme.kind_identifier ('\u0085' :: others) with hkind | hkind <;>
      rw [hkind] <;> decide

theorem startsValue_of_exportDefault (hparse : parse source = .ok program)
    (hmem : .mk span (.exportDefault value) ∈ program.statements) :
    ∃ keyword comments, HasHeader source.toList span.start keyword comments ∧
      StartsValue source.toList keyword comments
        (defaultValueStart source.toList span value.span) := by
  obtain ⟨front, keyword, gap, comments, between, rest, hlayout, hstart, hle, hname⟩ :=
    exists_layout_of_exportDefault hparse hmem
  obtain ⟨start, stop⟩ := span
  dsimp only at hstart
  subst hstart
  exact ⟨keyword, comments, hlayout.hasHeader, hlayout.startsValue hle hname⟩

end Program

/-! ### Statements of a module -/

/-- Exactly the default exports of values have a text that starts at a value. -/
theorem Interface.IsKind.defaultValue_iff {text : List Char} {node : Node}
    {kind : StatementKind} (h : IsKind text node kind) (start : Nat) :
    kind = .defaultValue start ↔
      ∃ value, node.shape = .exportDefault value ∧
        start = defaultValueStart text node.span value.span := by
  obtain ⟨before, after, hadd⟩ := h
  unfold addStatement at hadd
  split at hadd
  case h_1 =>
    obtain ⟨_, _, hadd⟩ := Except.bind_eq_ok_iff.mp hadd
    cases hadd
    simp [Node.shape]
  case h_4 =>
    cases hadd
    simp [Node.shape, Node.span, eq_comm]
  case h_6 hdefault _ =>
    cases hadd
    obtain ⟨span, shape⟩ := node
    refine iff_of_false nofun ?_
    rintro ⟨value, rfl, _⟩
    exact hdefault span value rfl
  all_goals
    cases hadd
    simp [Node.shape]

namespace Module

open Interface

variable {resolver : Resolver} {path : Path} {source : String} {module : Module}

/-- The statements of a module with a text that starts at a value are its default
exports of values.  The text starts at the first character behind the key word
`default` that trimming does not take, exactly if no comment between `export` and
`default` holds the word `default`, and if no name starts with what trimming takes. -/
theorem default_value_start (hmodule : ofSource resolver path source = .ok module) :
    ∃ program, Program.parse source = .ok program ∧
      module.statements.length = program.statements.length ∧
      ∀ (id : Nat) (statement : Statement), module.statements[id]? = some statement →
        ∃ node, program.statements[id]? = some node ∧ statement.span = node.span ∧
          ((∃ value, node.shape = .exportDefault value) ↔
            ∃ start, statement.kind = .defaultValue start) ∧
          ∀ start, statement.kind = .defaultValue start →
            ∃ keyword comments,
              HasHeader source.toList node.span.start keyword comments ∧
              StartsValue source.toList keyword comments start := by
  obtain ⟨_, _, program, hparse, hanalysis⟩ := ofSource_eq_ok hmodule
  obtain ⟨kinds, hkinds, hdefines⟩ := Analysis.map_defines_of_ofProgram hanalysis
  have hlength := congrArg List.length hdefines
  rw [List.length_map, Analysis.declareAll_eq, Analysis.length_declareFrom,
    List.length_zip, length_ofStatements hkinds, Nat.min_self] at hlength
  refine ⟨program, hparse, hlength, fun id statement hstatement => ?_⟩
  obtain ⟨⟨⟨span, shape⟩, kind⟩, hfound, hkind, hspan, _⟩ :=
    Analysis.exists_statement_of_ofProgram hanalysis hkinds hstatement
  have hzip := List.mem_of_getElem? hfound
  have hisKind : IsKind source.toList (.mk span shape) kind :=
    (List.forall₂_iff_zip.mp (forall₂_ofStatements hkinds)).2 hzip
  refine ⟨_, (List.getElem?_zip_eq_some.mp hfound).1, hspan, ?_⟩
  dsimp only at hkind
  rw [hkind]
  refine ⟨?_, fun start hstart => ?_⟩
  · simp only [hisKind.defaultValue_iff]
    exact ⟨fun ⟨value, hvalue⟩ => ⟨_, value, hvalue, rfl⟩,
      fun ⟨_, value, hvalue, _⟩ => ⟨value, hvalue⟩⟩
  · obtain ⟨value, rfl, rfl⟩ := (hisKind.defaultValue_iff start).mp hstart
    exact Program.startsValue_of_exportDefault hparse (List.of_mem_zip hzip).1

/-- A default export with comments on both sides of its key word. -/
def commentedDefault : String := "export /* c */ default /* d */ (x);"

/-- A comment behind the key word is part of the text, and so is a parenthesis. -/
theorem default_value_start_commented :
    ∃ module, ofSource .plain ⟨"/m.js"⟩ commentedDefault = .ok module ∧
      module.statements.map (·.kind) = [.defaultValue 23] ∧
      ∃ keyword comments,
        HasHeader commentedDefault.toList 0 keyword comments ∧
          StartsValue commentedDefault.toList keyword comments 23 := by
  have hfacts : ((ofSource .plain ⟨"/m.js"⟩ commentedDefault).toOption.any
      fun module => module.statements.map
        (fun statement => (statement.kind, statement.span)) =
          [(.defaultValue 23, ⟨0, 35⟩)]) = true := by
    decide +kernel
  obtain ⟨module, hmodule, hstatements⟩ := Except.exists_of_any_toOption hfacts
  rw [decide_eq_true_eq] at hstatements
  obtain ⟨program, _, _, hall⟩ := default_value_start hmodule
  refine ⟨module, hmodule, ?_, ?_⟩
  · have hkinds := congrArg (List.map Prod.fst) hstatements
    rwa [List.map_map] at hkinds
  · obtain ⟨statement, hstatement, hsame⟩ := List.map_eq_singleton_iff.mp hstatements
    obtain ⟨hkind, hspan⟩ := Prod.mk.inj hsame
    obtain ⟨node, _, hnode, _, hvalue⟩ := hall 0 statement (by rw [hstatement]; rfl)
    obtain ⟨keyword, comments, hheader, hstart⟩ := hvalue 23 hkind
    rw [← hnode, hspan] at hheader
    exact ⟨keyword, comments, hheader, hstart⟩

/-- A default export with a comment that holds the word of its key word. -/
def mentionedDefault : String := "export /* default */ default x;"

/-- The word in a comment in front of the key word is taken for the key word, so that
the rest of the comment and the key word become part of the text. -/
theorem default_value_start_mentioned :
    ∃ module, ofSource .plain ⟨"/m.js"⟩ mentionedDefault = .ok module ∧
      module.statements.map (·.kind) = [.defaultValue 18] ∧
      (tokenAt mentionedDefault.toList .standard 6).kind = .keyword .defaultWord ∧
      (tokenAt mentionedDefault.toList .standard 6).span = ⟨21, 28⟩ ∧
      trimmedFrom mentionedDefault.toList 28 = 29 := by
  have hfacts : ((ofSource .plain ⟨"/m.js"⟩ mentionedDefault).toOption.any
      fun module => module.statements.map (·.kind) = [.defaultValue 18]) = true := by
    decide +kernel
  obtain ⟨module, hmodule, hkinds⟩ := Except.exists_of_any_toOption hfacts
  exact ⟨module, hmodule, of_decide_eq_true hkinds, by decide +kernel, by decide +kernel,
    by decide +kernel⟩

end Module

end Bundler
