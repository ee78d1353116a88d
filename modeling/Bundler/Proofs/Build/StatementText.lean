import Bundler.Proofs.Analysis.DefaultValues
import Bundler.Proofs.Analysis.Distinct
import Bundler.Proofs.Analysis.Failures
import Bundler.Proofs.Build.Emission
import Bundler.Proofs.Build.Renamed
import Bundler.Proofs.Parser.Locations

/-!
# The text of a statement in a bundle

What is kept of a statement is written as its source has it, with just those names
replaced that are written differently.  The references of a statement stand one behind
the other and each where its name is, so all pieces that are copied are ranges of the
source, and nothing is copied twice or left out.
-/

namespace Bundler

/-- The references of a statement stand in its range one behind the other, each where
its name is in the source. -/
structure Statement.PlacesReferences (text : List Char) (statement : Statement) :
    Prop where
  inOrder : statement.references.Pairwise fun first second =>
    first.span.start < second.span.start ∧ first.span.stop ≤ second.span.start
  contains : ∀ reference ∈ statement.references,
    statement.span.contains reference.span = true
  isIn : ∀ reference ∈ statement.references, reference.span.IsIn text
  cut_eq : ∀ reference ∈ statement.references,
    Text.cut text reference.span = reference.name

/-- Where the part of a statement starts that is kept: an exported declaration where it
starts, the value of a default export behind the key words, and any other statement
where it starts. -/
def Node.KeepsFrom (text : List Char) (node : Node) (start : Nat) : Prop :=
  match node.shape with
  | .exportDeclaration _ declaration => start = declaration.span.start
  | .exportDefault _ => ∃ keyword comments,
      Interface.HasHeader text node.span.start keyword comments ∧
        Interface.StartsValue text keyword comments start
  | _ => start = node.span.start

/-! ### Where references stand -/

namespace Analysis

variable {path : Path} {source : String} {program : Program} {analysis : Analysis}

theorem placesReferences_of_ofProgram
    (hparse : Program.parse source = .ok program)
    (hanalysis : ofProgram path source program = .ok analysis)
    {id : Nat} {statement : Statement}
    (hstatement : analysis.statements[id]? = some statement)
    {found : Node × StatementKind} (hfound : found.1 ∈ program.statements)
    (hspan : statement.span = found.1.span)
    (hreferences : statement.references.Perm (Site.free (Site.ofStatement found))) :
    statement.PlacesReferences source.toList := by
  obtain ⟨first, last, hreads, hlexes, hfits, hwhole⟩ :=
    Program.exists_reads_of_parse hparse hfound
  obtain ⟨hnodup, htext⟩ := references_distinct hparse hfound hreferences
  have hallows : ∀ reference ∈ statement.references,
      (Naming.ofConsumed first last).Allows reference.span reference.name :=
    fun reference hreference => Site.allows_free hfits.names reference
      (hreferences.mem_iff.mp hreference)
  have hword : ∀ reference ∈ statement.references, ∃ token,
      TokenStream.Consumes first last token ∧ token.span = reference.span ∧
        token.text = reference.name := by
    intro reference hreference
    obtain ⟨token, htoken, _, hplace, hname⟩ := Naming.exists_token_of_allows
      (hallows reference hreference) (htext reference hreference)
    exact ⟨token, htoken, hplace, hname⟩
  refine ⟨?_, fun reference hreference => ?_, fun reference hreference => ?_,
    fun reference hreference => ?_⟩
  · have hsorted := (pairwise_references hanalysis hstatement).and
      (List.pairwise_map.mp hnodup)
    refine hsorted.imp_of_mem fun {left right} hleft hright hboth => ?_
    obtain ⟨hle, hne⟩ := hboth
    have hapart : left.span.stop ≤ right.span.start := by
      by_contra hover
      exact hne (Naming.eq_of_overlap hlexes (hallows right hright)
        (hallows left hleft) (htext right hright) hle (Nat.lt_of_not_le hover)).1
    have hlonger := htext left hleft
    rw [Span.isEmpty, decide_eq_false_iff_not] at hlonger
    exact ⟨by omega, hapart⟩
  · obtain ⟨token, htoken, hplace, _⟩ := hword reference hreference
    rw [hspan, hwhole, ← hplace]
    exact Span.contains_iff.mpr (hlexes.spanSince_encloses htoken)
  · obtain ⟨token, htoken, hplace, _⟩ := hword reference hreference
    rw [← hplace]
    exact (hreads.isIn_of_consumes (htoken.mono (Nat.zero_le _))).span
  · obtain ⟨token, htoken, hplace, hname⟩ := hword reference hreference
    obtain ⟨front, back, hsplit, hstart, hstop⟩ :=
      hreads.isIn_of_consumes (htoken.mono (Nat.zero_le _))
    have hslice := Bundle.slice_append front token.text.toList back
    rw [List.append_assoc, ← hsplit, ← hstop, ← hstart] at hslice
    rw [← hplace, ← hname, Text.cut]
    exact (congrArg String.ofList hslice).trans String.ofList_toList

end Analysis

/-! ### Where kept parts start -/

section Starts

open Text

variable {text : List Char}

/-- A range of a text is a piece of it. -/
theorem Span.IsIn.exists_pieces {span : Span} (h : span.IsIn text) :
    ∃ front piece back, text = front ++ (piece ++ back) ∧
      span.start = byteLength front ∧
      span.stop = byteLength front + byteLength piece := by
  obtain ⟨⟨front, rest, rfl, hstart⟩, ⟨others, back, hsame, hstop⟩, hle⟩ := h
  rw [hstart, hstop] at hle
  obtain ⟨piece, rfl, rfl⟩ := exists_append_of_byteLength_le hsame hle
  exact ⟨front, piece, back, rfl, hstart, by rw [hstop, byteLength_append]⟩

/-- The text of a default value starts within the statement, at the value or in front of
it. -/
theorem Interface.isIn_defaultValueStart {statement value : Span}
    (hheader : (⟨statement.start, value.start⟩ : Span).IsIn text) :
    (⟨statement.start, defaultValueStart text statement value⟩ : Span).IsIn text ∧
      defaultValueStart text statement value ≤ value.start := by
  obtain ⟨front, header, back, rfl, hstart, hstop⟩ := hheader.exists_pieces
  dsimp only at hstart hstop
  have hslice : slice (front ++ (header ++ back)) ⟨statement.start, value.start⟩ =
      header := by
    rw [hstart, hstop, ← List.append_assoc, Bundle.slice_append]
  rw [defaultValueStart, hslice]
  cases hfind : find? defaultSlot.toList header with
  | none => exact ⟨hheader, Nat.le_refl _⟩
  | some offset =>
      obtain ⟨left, right, rfl, rfl⟩ := exists_of_find? hfind
      have hsize : defaultSlot.utf8ByteSize = byteLength defaultSlot.toList := by
        rw [byteLength_defaultSlot]
        rfl
      have hrest : slice (front ++ (left ++ (defaultSlot.toList ++ right) ++ back))
          ⟨statement.start + byteLength left + defaultSlot.utf8ByteSize,
            value.start⟩ = right := by
        have hpiece := Bundle.slice_append (front ++ (left ++ defaultSlot.toList)) right
          back
        simp only [byteLength_append, List.append_assoc, ← Nat.add_assoc] at hpiece hstop ⊢
        rw [hstart, hstop, hsize]
        exact hpiece
      dsimp only
      rw [hrest]
      have hle := byteLength_takeWhile_le CharClass.isUnicodeSpace right
      simp only [byteLength_append] at hstop
      refine ⟨⟨hheader.1, ⟨front ++ (left ++ (defaultSlot.toList ++
        right.takeWhile CharClass.isUnicodeSpace)),
        right.dropWhile CharClass.isUnicodeSpace ++ back, ?_, ?_⟩, ?_⟩, ?_⟩
      · simp only [List.append_assoc]
        rw [← List.append_assoc (right.takeWhile _), List.takeWhile_append_dropWhile]
      · simp only [byteLength_append, hsize, hstart]
        omega
      · dsimp only
        omega
      · omega

/-- What is kept of a statement is a range of its source. -/
theorem Interface.IsKind.keeps {source : String} {program : Program}
    (hparse : Program.parse source = .ok program) {node : Node}
    (hmem : node ∈ program.statements) {statement : Statement}
    (hspan : statement.span = node.span)
    (hkind : IsKind source.toList node statement.kind) :
    node.KeepsFrom source.toList (Bundle.keptStart statement) ∧
      (⟨Bundle.keptStart statement, statement.span.stop⟩ : Span).IsIn
        source.toList := by
  have hlocated := Program.located_of_parse hparse node hmem
  have hwhole := hlocated.isIn
  obtain ⟨before, after, hadd⟩ := hkind
  obtain ⟨range, kind, _, _, _, _, _, _⟩ := statement
  obtain ⟨span, shape⟩ := node
  dsimp only at hspan hadd ⊢
  subst hspan
  cases shape
  case importFrom defaultName names source =>
    obtain ⟨_, _, hadd⟩ := Except.bind_eq_ok_iff.mp hadd
    cases hadd
    exact ⟨rfl, hwhole⟩
  case exportDeclaration isDefault declaration =>
    cases hadd
    have hdeclaration := hlocated.parts _ List.mem_cons_self
    exact ⟨rfl, hdeclaration.isIn.1, hwhole.2.1,
      Nat.le_trans hdeclaration.isIn.2.2
        (Span.contains_iff.mp hdeclaration.contains).2⟩
  case exportDefault value =>
    cases hadd
    have hvalue := hlocated.parts _ List.mem_cons_self
    have hcontains := Span.contains_iff.mp hvalue.contains
    obtain ⟨hstart, hle⟩ := isIn_defaultValueStart
      (⟨hwhole.1, hvalue.isIn.1, hcontains.1⟩ :
        (⟨range.start, value.span.start⟩ : Span).IsIn source.toList)
    exact ⟨Program.startsValue_of_exportDefault hparse hmem, hstart.2.1, hwhole.2.1,
      Nat.le_trans hle (Nat.le_trans hvalue.isIn.2.2 hcontains.2)⟩
  all_goals
    cases hadd
    exact ⟨rfl, hwhole⟩

end Starts

namespace Replacement

/-- A text is that of a source from an offset to another but for replacements.  What
stands in front of each of them, and behind the last one, is copied, and all that is
copied or replaced is a range of the source. -/
inductive Weaves (source : List Char) :
    Nat → Nat → List Replacement → List Char → Prop
  | rest {start stop : Nat} : (⟨start, stop⟩ : Span).IsIn source →
      Weaves source start stop [] (Text.slice source ⟨start, stop⟩)
  | replace {start stop : Nat} {replacement : Replacement}
      {others : List Replacement} {text : List Char} :
      (⟨start, replacement.reference.span.start⟩ : Span).IsIn source →
      Text.cut source replacement.reference.span = replacement.reference.name →
      Weaves source replacement.reference.span.stop stop others text →
      Weaves source start stop (replacement :: others)
        (Text.slice source ⟨start, replacement.reference.span.start⟩ ++
          replacement.text.toList ++ text)

/-- Replacements in order are woven into the source. -/
theorem weaves_apply {source : List Char} {start stop : Nat}
    {found : List Replacement} (hrange : (⟨start, stop⟩ : Span).IsIn source)
    (horder : found.Pairwise fun first second =>
      first.reference.span.stop ≤ second.reference.span.start)
    (hstart : ∀ replacement ∈ found, start ≤ replacement.reference.span.start)
    (hstop : ∀ replacement ∈ found, replacement.reference.span.stop ≤ stop)
    (hisIn : ∀ replacement ∈ found, replacement.reference.span.IsIn source)
    (hcut : ∀ replacement ∈ found,
      Text.cut source replacement.reference.span = replacement.reference.name) :
    Weaves source start stop found (apply source start stop found) := by
  induction found generalizing start with
  | nil => exact .rest hrange
  | cons replacement others ih =>
      obtain ⟨hnext, horder⟩ := List.pairwise_cons.mp horder
      obtain ⟨hfirst, _⟩ := List.forall_mem_cons.mp hstart
      obtain ⟨hlast, hstop⟩ := List.forall_mem_cons.mp hstop
      obtain ⟨hspan, hisIn⟩ := List.forall_mem_cons.mp hisIn
      obtain ⟨hname, hcut⟩ := List.forall_mem_cons.mp hcut
      exact .replace ⟨hrange.1, hspan.1, hfirst⟩ hname
        (ih ⟨hspan.2.1, hrange.2.1, hlast⟩ horder hnext hstop hisIn hcut)

end Replacement

namespace Bundle

variable {bundle : Bundle} {module : Module} {start stop : Nat}
  {references : List Reference} {found : List Replacement}

/-- A replacement of a reference from an offset on that is written differently. -/
def Replaces (bundle : Bundle) (module : Module) (start : Nat)
    (references : List Reference) (replacement : Replacement) : Prop :=
  replacement.reference ∈ references ∧
    start ≤ replacement.reference.span.start ∧
    bundle.writtenName module replacement.reference.name =
      .ok replacement.written ∧
    replacement.written ≠ replacement.reference.name

/-- References one behind the other, none of which reaches over an offset. -/
def InOrder (stop : Nat) (references : List Reference) : Prop :=
  (references.Pairwise fun first second =>
      first.span.start < second.span.start ∧
        first.span.stop ≤ second.span.start) ∧
    ∀ reference ∈ references,
      reference.span.start ≤ reference.span.stop ∧ reference.span.stop ≤ stop

theorem InOrder.tail {reference : Reference}
    (h : InOrder stop (reference :: references)) :
    InOrder stop references ∧ reference.span.start ≤ reference.span.stop ∧
      reference.span.stop ≤ stop ∧
      ∀ later ∈ references, reference.span.stop ≤ later.span.start := by
  obtain ⟨hnext, horder⟩ := List.pairwise_cons.mp h.1
  obtain ⟨⟨hspan, hstop⟩, hothers⟩ := List.forall_mem_cons.mp h.2
  exact ⟨⟨horder, hothers⟩, hspan, hstop, fun later hlater => (hnext later hlater).2⟩

/-- Of references in order, just those from an offset on are replaced that are written
differently. -/
theorem replaces_iff (horder : InOrder stop references)
    (hfound : bundle.replacements module start stop references = .ok found) :
    (found.map (·.reference)).Sublist references ∧
      ∀ replacement, replacement ∈ found ↔
        bundle.Replaces module start references replacement := by
  induction references generalizing start found with
  | nil =>
      obtain rfl := Except.ok.inj hfound
      exact ⟨.slnil, fun _ => iff_of_false List.not_mem_nil
        fun hreplaces => List.not_mem_nil hreplaces.1⟩
  | cons reference others ih =>
      obtain ⟨horder, hspan, hstop, hnext⟩ := horder.tail
      rcases replacements_cons_eq_ok hfound with
        ⟨hout, hothers⟩ | ⟨written, later, hstart, hdiffers, hwritten, hothers, rfl⟩
      · obtain ⟨hsublist, hiff⟩ := ih horder hothers
        refine ⟨hsublist.cons _, fun replacement => (hiff replacement).trans ?_⟩
        constructor
        · rintro ⟨hmem, hreplaces⟩
          exact ⟨List.mem_cons_of_mem _ hmem, hreplaces⟩
        · rintro ⟨hmem, hle, hname, hother⟩
          refine ⟨(List.mem_cons.mp hmem).resolve_left fun heq => ?_, hle, hname, hother⟩
          rw [heq] at hle hname hother
          rcases hout with hbefore | hbehind | hsame
          · omega
          · omega
          · rw [hsame] at hname
            exact hother (Except.ok.inj hname).symm
      · obtain ⟨hsublist, hiff⟩ := ih horder hothers
        refine ⟨hsublist.cons_cons _, fun replacement => ?_⟩
        rw [List.mem_cons, hiff]
        constructor
        · rintro (rfl | ⟨hmem, _, hname, hother⟩)
          · exact ⟨List.mem_cons_self, hstart, hwritten, hdiffers⟩
          · have hbehind := hnext _ hmem
            exact ⟨List.mem_cons_of_mem _ hmem, by omega, hname, hother⟩
        · rintro ⟨hmem, _, hname, hother⟩
          obtain ⟨replaced, expression⟩ := replacement
          rcases List.mem_cons.mp hmem with heq | hmem
          · dsimp only at heq hname
            subst heq
            rw [hwritten] at hname
            exact .inl (congrArg (Replacement.mk replaced) (Except.ok.inj hname).symm)
          · exact .inr ⟨hmem, hnext _ hmem, hname, hother⟩

/-- Replacements are found just if all names from an offset on can be written. -/
theorem exists_replacements_iff (horder : InOrder stop references) :
    (∃ found, bundle.replacements module start stop references = .ok found) ↔
      ∀ reference ∈ references, start ≤ reference.span.start →
        bundle.IsWritable module reference.name := by
  constructor
  · rintro ⟨found, hfound⟩
    induction references generalizing start found with
    | nil => exact List.forall_mem_nil _
    | cons reference others ih =>
        obtain ⟨horder, hspan, hstop, hnext⟩ := horder.tail
        rw [List.forall_mem_cons]
        rcases replacements_cons_eq_ok hfound with
          ⟨hout, hothers⟩ | ⟨written, later, _, _, hwritten, hothers, _⟩
        · refine ⟨fun hstart => ?_, ih horder _ hothers⟩
          rcases hout with hbefore | hbehind | hsame
          · omega
          · omega
          · exact ⟨_, hsame⟩
        · exact ⟨fun _ => ⟨written, hwritten⟩,
            fun other hother _ => ih horder _ hothers other hother (hnext other hother)⟩
  · intro hwritable
    induction references generalizing start with
    | nil => exact ⟨[], rfl⟩
    | cons reference others ih =>
        obtain ⟨horder, hspan, hstop, hnext⟩ := horder.tail
        obtain ⟨hfirst, hothers⟩ := List.forall_mem_cons.mp hwritable
        rw [replacements]
        split
        · exact ih horder hothers
        · rename_i hin
          simp only [Bool.or_eq_true, decide_eq_true_eq, not_or, Nat.not_lt] at hin
          obtain ⟨written, hwritten⟩ := hfirst hin.1
          obtain ⟨same, hsame⟩ := ih horder hothers
          obtain ⟨later, hlater⟩ : ∃ found, bundle.replacements module
              reference.span.stop stop others = .ok found :=
            ih horder fun other hother _ => hothers other hother
              (Nat.le_trans hin.1 (Nat.le_trans hspan (hnext other hother)))
          rw [hwritten]
          by_cases heq : written = reference.name
          · exact ⟨same, (if_pos heq).trans hsame⟩
          · refine ⟨⟨reference, written⟩ :: later, (if_neg heq).trans ?_⟩
            rw [hlater]
            rfl

/-- A default value is bound to the name that stands for it, loses the white space at
its end and gets a semicolon if it has none.  Any other statement stays as it is. -/
def Finishes (bundle : Bundle) (module : Module) (statement : Statement)
    (kept text : List Char) : Prop :=
  if statement.kind.isDefaultValue then
    ∃ body blank,
      ("var " ++ bundle.names.written module.path defaultSlot ++ " = ").toList ++
          kept = body ++ blank ∧
        (∀ c ∈ blank, CharClass.isUnicodeSpace c = true) ∧
        (∀ c ∈ body.getLast?, CharClass.isUnicodeSpace c = false) ∧
        text = body ++ if body.getLast? = some ';' then [] else [';']
  else text = kept

theorem finishes_finished (statement : Statement) (kept : List Char) :
    bundle.Finishes module statement kept
      (bundle.finished module statement kept) := by
  rw [Finishes, finished]
  split
  · generalize ("var " ++ bundle.names.written module.path defaultSlot ++
      " = ").toList ++ kept = text
    refine ⟨CharClass.trimEnd text,
      (text.reverse.takeWhile CharClass.isUnicodeSpace).reverse, ?_, ?_, ?_, ?_⟩
    · rw [CharClass.trimEnd, ← List.reverse_append, List.takeWhile_append_dropWhile,
        List.reverse_reverse]
    · intro c hc
      exact List.all_eq_true.mp List.all_takeWhile c (List.mem_reverse.mp hc)
    · intro c hc
      rw [CharClass.trimEnd, List.getLast?_reverse] at hc
      have hstop :=
        List.head?_dropWhile_not CharClass.isUnicodeSpace text.reverse
      rw [hc] at hstop
      exact hstop
    · rw [terminated]
      split <;> simp
  · rfl

/-- A text is what a statement is written as: its kept part with just those references
replaced that are written differently, finished. -/
def IsTextOf (bundle : Bundle) (module : Module) (statement : Statement)
    (text : List Char) : Prop :=
  ∃ found kept,
    (found.map (·.reference)).Sublist statement.references ∧
    (∀ replacement, replacement ∈ found ↔
      bundle.Replaces module (keptStart statement) statement.references
        replacement) ∧
    Replacement.Weaves module.source.toList (keptStart statement)
      statement.span.stop found kept ∧
    bundle.Finishes module statement kept text

section Text

variable {statement : Statement}
  (hplaces : statement.PlacesReferences module.source.toList)
  (hkept : (⟨keptStart statement, statement.span.stop⟩ : Span).IsIn
    module.source.toList)
include hplaces

theorem inOrder_references : InOrder statement.span.stop statement.references :=
  ⟨hplaces.inOrder, fun reference hreference =>
    ⟨(hplaces.isIn reference hreference).2.2,
      (Span.contains_iff.mp (hplaces.contains reference hreference)).2⟩⟩

theorem exists_statementText_iff :
    (∃ text, bundle.statementText module statement = .ok text) ↔
      ∀ reference ∈ statement.references,
        keptStart statement ≤ reference.span.start →
          bundle.IsWritable module reference.name := by
  rw [← exists_replacements_iff (inOrder_references hplaces)]
  constructor
  · rintro ⟨text, htext⟩
    obtain ⟨found, hfound, _⟩ := statementText_eq_ok htext
    exact ⟨found, hfound⟩
  · rintro ⟨found, hfound⟩
    rw [statementText]
    dsimp only
    rw [hfound]
    cases statement.kind.isDefaultValue with
    | true => exact ⟨_, rfl⟩
    | false => exact ⟨_, rfl⟩

include hkept

theorem isTextOf_of_statementText {text : List Char}
    (htext : bundle.statementText module statement = .ok text) :
    bundle.IsTextOf module statement text := by
  obtain ⟨found, hfound, rfl⟩ := statementText_eq_ok htext
  obtain ⟨hsublist, hiff⟩ := replaces_iff (inOrder_references hplaces) hfound
  have hmem : ∀ replacement ∈ found, replacement.reference ∈ statement.references :=
    fun replacement hreplacement => ((hiff replacement).mp hreplacement).1
  have horder : found.Pairwise fun first second =>
      first.reference.span.stop ≤ second.reference.span.start :=
    List.pairwise_map.mp ((hplaces.inOrder.sublist hsublist).imp fun hboth => hboth.2)
  refine ⟨found, _, hsublist, hiff, Replacement.weaves_apply hkept horder ?_ ?_ ?_ ?_,
    finishes_finished statement _⟩
  · exact fun replacement hreplacement => ((hiff replacement).mp hreplacement).2.1
  · exact fun replacement hreplacement => (Span.contains_iff.mp
      (hplaces.contains _ (hmem replacement hreplacement))).2
  · exact fun replacement hreplacement =>
      hplaces.isIn _ (hmem replacement hreplacement)
  · exact fun replacement hreplacement =>
      hplaces.cut_eq _ (hmem replacement hreplacement)

end Text

end Bundle

namespace Module

/-- The references of a statement are the names in it that nothing within it binds, and
they stand one behind the other, each where its name is in the source.  What is kept of
the statement is written as it is but for just those of them that are written
differently, and of the value of a default export a variable is made.  It can be written
if all its references can, so in a bundle unless it declares a name that its module also
imports from where it is not. -/
theorem statement_texts {resolver : Resolver} {path : Path} {source : String}
    {module : Module} (hmodule : ofSource resolver path source = .ok module) :
    ∃ program, Program.parse source = .ok program ∧
      module.statements.length = program.statements.length ∧
      ∀ (id : Nat) (statement : Statement), module.statements[id]? = some statement →
        ∃ node, program.statements[id]? = some node ∧ statement.span = node.span ∧
          statement.kind.isDefaultValue = node.isDefaultValue ∧
          statement.references.Perm
            (Site.free (Site.ofStatement (node, statement.kind))) ∧
          statement.PlacesReferences source.toList ∧
          node.KeepsFrom source.toList (Bundle.keptStart statement) ∧
          (∀ (bundle : Bundle) (text : List Char),
            bundle.statementText module statement = .ok text →
              bundle.IsTextOf module statement text) ∧
          (∀ bundle : Bundle,
            (∃ text, bundle.statementText module statement = .ok text) ↔
              ∀ reference ∈ statement.references,
                Bundle.keptStart statement ≤ reference.span.start →
                  bundle.IsWritable module reference.name) ∧
          ∀ (files : Files) (resolver : Resolver) (options : BundleOptions)
            (entry : Path) (bundle : Bundle),
            Bundle.build files resolver options entry = .ok bundle →
            module ∈ bundle.modules → (module.path, id) ∈ bundle.statements →
            (∀ name ∈ statement.defines, module.imports.contains name = true →
              ∃ binding, bundle.loader.resolveName module name = .ok binding) →
            ∃ text, bundle.statementText module statement = .ok text := by
  obtain ⟨_, rfl, program, hparse, hanalysis⟩ := ofSource_eq_ok hmodule
  obtain ⟨kinds, hkinds, hdefines⟩ := Analysis.map_defines_of_ofProgram hanalysis
  have hlength := congrArg List.length hdefines
  rw [List.length_map, Analysis.declareAll_eq, Analysis.length_declareFrom,
    List.length_zip, Interface.length_ofStatements hkinds, Nat.min_self] at hlength
  refine ⟨program, hparse, hlength, fun id statement hstatement => ?_⟩
  obtain ⟨⟨node, kind⟩, hfound, hkind, hspan, _, hreferences⟩ :=
    Analysis.exists_statement_of_ofProgram hanalysis hkinds hstatement
  dsimp only at hkind hspan
  have hzip := List.mem_of_getElem? hfound
  have hnode := (List.of_mem_zip hzip).1
  have hisKind : Interface.IsKind module.source.toList node kind :=
    (List.forall₂_iff_zip.mp (Interface.forall₂_ofStatements hkinds)).2 hzip
  subst hkind
  have hplaces := Analysis.placesReferences_of_ofProgram hparse hanalysis hstatement
    hnode hspan hreferences
  obtain ⟨hkeeps, hkept⟩ := hisKind.keeps hparse hnode hspan
  refine ⟨node, (List.getElem?_zip_eq_some.mp hfound).1, hspan, hisKind.agrees.2,
    hreferences, hplaces, hkeeps, fun bundle text => Bundle.isTextOf_of_statementText hplaces hkept,
    fun bundle => Bundle.exists_statementText_iff hplaces,
    fun files resolver options entry bundle hbuild hlisted hincluded hdeclared => ?_⟩
  obtain ⟨hreachable, _, _, walk, shaker, hassembled⟩ := Bundle.build_eq_ok hbuild
  exact (Bundle.exists_statementText_iff hplaces).mpr fun reference hreference _ =>
    hassembled.isWritable hreachable.isFaithful hlisted hincluded hstatement hdeclared
      hreference

/-- A shorthand property of an import that has another name where it is declared. -/
def importedShorthand : String :=
  "import \x7b x as y \x7d from './a';\nexport default \x7b y \x7d"

/-- The shorthand property keeps its key, and the value gets a semicolon. -/
theorem statement_texts_shorthand :
    ∃ module bundle, ofSource .plain ⟨"/m.js"⟩ importedShorthand = .ok module ∧
      Bundle.build (.ofList [(⟨"/a.js"⟩, "export let x = 1;"),
        (⟨"/m.js"⟩, importedShorthand)]) .plain .standard ⟨"/m.js"⟩ = .ok bundle ∧
      ∃ statement, module.statements[1]? = some statement ∧
        statement.references.map (·.isShorthand) = [true] ∧
        bundle.IsTextOf module statement
          "var m = \x7b y: x \x7d;".toList := by
  have hfacts : ((ofSource .plain ⟨"/m.js"⟩ importedShorthand).toOption.any fun module =>
      (Bundle.build (.ofList [(⟨"/a.js"⟩, "export let x = 1;"),
        (⟨"/m.js"⟩, importedShorthand)]) .plain .standard ⟨"/m.js"⟩).toOption.any
        fun bundle => module.statements[1]?.any fun statement =>
          decide (statement.references.map (·.isShorthand) = [true]) &&
            (bundle.statementText module statement).toOption.any fun text =>
              decide (text = "var m = \x7b y: x \x7d;".toList)) = true := by
    decide +kernel
  obtain ⟨module, hmodule, hfacts⟩ := Except.exists_of_any_toOption hfacts
  obtain ⟨bundle, hbuild, hfacts⟩ := Except.exists_of_any_toOption hfacts
  obtain ⟨statement, hstatement, hfacts⟩ := (Option.any_eq_true _ _).mp hfacts
  obtain ⟨hshorthand, hfacts⟩ := Bool.and_eq_true_iff.mp hfacts
  obtain ⟨text, htext, hsame⟩ := Except.exists_of_any_toOption hfacts
  rw [of_decide_eq_true hsame] at htext
  obtain ⟨_, _, _, hall⟩ := statement_texts hmodule
  obtain ⟨_, _, _, _, _, _, _, htexts, _⟩ := hall 1 statement hstatement
  exact ⟨module, bundle, hmodule, hbuild, statement, hstatement,
    of_decide_eq_true hshorthand, htexts bundle _ htext⟩

/-- Where a comment in front of `default` holds the word, the text is not made of the
value, which stands at the end of the source, but of a part of the comment, the key
word and the value. -/
theorem statement_texts_mentioned :
    ∃ program bundle, Program.parse mentionedDefault = .ok program ∧
      program.statements.map (·.parts.map (·.2.span)) = [[⟨29, 30⟩]] ∧
      Text.slice mentionedDefault.toList ⟨29, 31⟩ = "x;".toList ∧
      Bundle.build (.ofList [(⟨"/m.js"⟩, mentionedDefault)]) .plain .standard
        ⟨"/m.js"⟩ = .ok bundle ∧
      ∃ module ∈ bundle.modules, (module.path, 0) ∈ bundle.statements ∧
        ∃ statement, module.statements[0]? = some statement ∧
          bundle.statementText module statement =
            .ok "var m = */ default x;".toList ∧
          bundle.names.written module.path defaultSlot = "m" ∧
          "var m = */ default x;".toList ≠ "var m = x;".toList := by
  have hprogram : ((Program.parse mentionedDefault).toOption.any fun program =>
      decide (program.statements.map (·.parts.map (·.2.span)) = [[⟨29, 30⟩]])) =
        true := by
    decide +kernel
  have hbundle : ((Bundle.build (.ofList [(⟨"/m.js"⟩, mentionedDefault)]) .plain
      .standard ⟨"/m.js"⟩).toOption.any fun bundle =>
        bundle.modules.any fun module =>
          bundle.statements.contains (module.path, 0) &&
          decide (bundle.names.written module.path defaultSlot = "m") &&
          module.statements[0]?.any fun statement =>
            (bundle.statementText module statement).toOption.any fun text =>
              decide (text = "var m = */ default x;".toList)) = true := by
    decide +kernel
  obtain ⟨program, hparse, hparts⟩ := Except.exists_of_any_toOption hprogram
  obtain ⟨bundle, hbuild, hmodule⟩ := Except.exists_of_any_toOption hbundle
  obtain ⟨module, hmodule, hfacts⟩ := List.any_eq_true.mp hmodule
  simp only [Bool.and_eq_true, decide_eq_true_eq, Option.any_eq_true,
    List.contains_iff_mem] at hfacts
  obtain ⟨⟨hkept, hname⟩, statement, hstatement, _, htext, rfl⟩ := hfacts
  exact ⟨program, bundle, hparse, of_decide_eq_true hparts, by decide +kernel, hbuild,
    module, hmodule, hkept, statement, hstatement,
    Except.toOption_eq_some_iff.mp htext, hname, by decide⟩

end Module

end Bundler
