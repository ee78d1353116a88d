import Bundler.Proofs.Analysis.Definers
import Bundler.Proofs.Analysis.References

/-!
# Places of declarations

A name comes to the top level from any depth, unless a construct on the way out
keeps it.  So what a statement defines can be read off its sites: the names that
are declared at them and that all functions and blocks around let pass.  Where
such a name stands it is looked up like any other, and there a block that lets the
declaration pass may bind the name for its own part.
-/

namespace Bundler

namespace Frame

/-- Whether what is declared in a construct is passed on to what is around it. -/
def passes (isBlockScoped : Bool) (frame : Frame) : Bool :=
  !isBlockScoped && frame.isBlock

end Frame

namespace Site

variable (site : Site)

/-- A place at a site declares its name for the top level of the module. -/
def Declares (place : Occurrence) : Prop :=
  ∃ isBlockScoped, (place, isBlockScoped) ∈ site.node.declaringPlaces ∧
    site.frames.all (·.passes isBlockScoped) = true

end Site

section Declared

variable {node : Node} {isBlockScoped : Bool} {ownName : Option String}
  {isShorthand : Bool} {frames : List Frame} {site : Site}

theorem Node.exists_place_iff {name : String} :
    (∃ place, (place, isBlockScoped) ∈ node.declaringPlaces ∧
      place.name = name) ↔ name ∈ node.ownDeclared isBlockScoped := by
  rw [mem_ownDeclared, ← map_declaringPlaces, List.mem_map]
  constructor
  · rintro ⟨place, hplace, rfl⟩
    exact ⟨_, hplace, rfl⟩
  · rintro ⟨⟨place, flag⟩, hplace, hsame⟩
    obtain ⟨rfl, rfl⟩ := Prod.mk.inj hsame
    exact ⟨place, hplace, rfl⟩

/-- A construct keeps just what its frame does not pass on. -/
theorem Node.keeps_eq (ownName : Option String) (isBlockScoped : Bool)
    (node : Node) :
    node.keeps isBlockScoped =
      !(node.frame? ownName).toList.all (·.passes isBlockScoped) := by
  have hkind := map_isBlock_newScope? ownName node
  rw [keeps, frame?]
  cases hnew : node.newScope? ownName with
  | none =>
      rw [hnew, Option.map_none, eq_comm, Option.map_eq_none_iff] at hkind
      rw [hkind]
      rfl
  | some new =>
      rw [hnew, Option.map_some, eq_comm, Option.map_eq_some_iff] at hkind
      obtain ⟨plain, hplain, hsame⟩ := hkind
      simp [hplain, hsame, Frame.passes]

/-- The functions and blocks around a tree are around all its sites. -/
theorem Node.frames_suffix (hsite : site ∈ node.sites ownName isShorthand frames) :
    (node.frame? ownName).toList ++ frames <:+ site.frames := by
  induction node using parts_induction
    generalizing ownName isShorthand frames with
  | hnode node ih =>
    rw [sites_eq, List.mem_cons, List.mem_flatMap] at hsite
    rcases hsite with rfl | ⟨part, hpart, hsite⟩
    · exact List.suffix_rfl
    · exact (List.suffix_append _ _).trans (ih part hpart hsite)

/-- The parts of a node at a site of a tree are at sites of the tree, with what is
around the node. -/
theorem Node.sites_part (hsite : site ∈ node.sites ownName isShorthand frames)
    {part : Role × Node} (hpart : part ∈ site.node.parts) :
    part.2.sites site.node.ownName? (site.node.partIsShorthand part.1)
      site.frames ⊆ node.sites ownName isShorthand frames := by
  induction node using parts_induction
    generalizing ownName isShorthand frames with
  | hnode node ih =>
    rw [sites_eq ownName isShorthand frames node]
    rw [sites_eq, List.mem_cons, List.mem_flatMap] at hsite
    rcases hsite with rfl | ⟨other, hother, hsite⟩
    · exact fun inner hinner => List.mem_cons_of_mem _
        (List.mem_flatMap.mpr ⟨part, hpart, hinner⟩)
    · exact fun inner hinner => List.mem_cons_of_mem _
        (List.mem_flatMap.mpr ⟨other, hother, ih other hother hsite hinner⟩)

/-- The names declared in a construct that belong to what is around it are declared
at its sites, within constructs that pass them on. -/
theorem Node.mem_declaredWithin_iff {name : String}
    (hframes : frames.all (·.passes isBlockScoped) = true) :
    name ∈ node.declaredWithin isBlockScoped ↔
      ∃ site ∈ node.sites ownName isShorthand frames,
        name ∈ site.node.ownDeclared isBlockScoped ∧
          site.frames.all (·.passes isBlockScoped) = true := by
  induction node using parts_induction
    generalizing ownName isShorthand frames with
  | hnode node ih =>
    rw [declaredWithin_eq, keeps_eq ownName]
    cases hpasses : (node.frame? ownName).toList.all
        (·.passes isBlockScoped) with
    | false =>
        constructor
        · intro hname
          simp at hname
        · rintro ⟨site, hsite, _, hall⟩
          have hframe := (frames_suffix hsite).subset
          rw [← Bool.not_eq_true, List.all_eq_true] at hpasses
          rw [List.all_eq_true] at hall
          exact absurd (fun frame hmem => hall frame
            (hframe (List.mem_append_left _ hmem))) hpasses
    | true =>
        have haround : ((node.frame? ownName).toList ++ frames).all
            (·.passes isBlockScoped) = true := by
          rw [List.all_append, hpasses, hframes]
          rfl
        rw [sites_eq]
        simp only [Bool.not_true, Bool.false_eq_true, if_false, contents,
          List.mem_append, List.mem_flatMap, List.mem_cons]
        constructor
        · rintro (hown | ⟨part, hpart, hname⟩)
          · exact ⟨_, .inl rfl, hown, haround⟩
          · obtain ⟨site, hsite, hfound⟩ := (ih part hpart haround).mp hname
            exact ⟨site, .inr ⟨part, hpart, hsite⟩, hfound⟩
        · rintro ⟨site, rfl | ⟨part, hpart, hsite⟩, hname, hall⟩
          · exact .inl hname
          · exact .inr ⟨part, hpart,
              (ih part hpart haround).mpr ⟨site, hsite, hname, hall⟩⟩

end Declared

namespace Declarations

/-- What is recorded of a name at the top level comes of the sites of a statement
that declare it there. -/
theorem Records.visitStatement_iff {Holds : Declarations → Prop} {name : String}
    (hrecords : Records Holds ScopeTree.root name) {tree : ScopeTree}
    (hroot : ScopeTree.root < tree.size) (statement : Node) :
    Holds (visitStatement tree statement) ↔
      Holds ⟨tree, []⟩ ∨ ∃ site ∈ statement.sites none false [], ∃ place,
        site.Declares place ∧ place.name = name := by
  have hstart : ScopeTree.root < (Declarations.mk tree []).tree.size := hroot
  rw [visitStatement, visit_eq_walk]
  refine (hrecords.ofNode statement hstart hstart).trans (or_congr_right ?_)
  have htop : ∀ isBlockScoped,
      tree.home ScopeTree.root isBlockScoped = ScopeTree.root :=
    fun isBlockScoped => Nat.le_zero.mp
      (ScopeTree.home_le ScopeTree.root isBlockScoped)
  have hsites : ∀ isBlockScoped, name ∈ statement.declaredWithin isBlockScoped ↔
      ∃ site ∈ statement.sites none false [],
        name ∈ site.node.ownDeclared isBlockScoped ∧
          site.frames.all (·.passes isBlockScoped) = true :=
    fun _ => Node.mem_declaredWithin_iff rfl
  simp only [htop, true_and, hsites]
  constructor
  · rintro ⟨isBlockScoped, site, hsite, hown, hall⟩
    obtain ⟨place, hplace, hsame⟩ := Node.exists_place_iff.mpr hown
    exact ⟨site, hsite, place, ⟨isBlockScoped, hplace, hall⟩, hsame⟩
  · rintro ⟨site, hsite, place, ⟨isBlockScoped, hplace, hall⟩, hsame⟩
    exact ⟨isBlockScoped, site, hsite,
      Node.exists_place_iff.mp ⟨place, hplace, hsame⟩, hall⟩

/-- A walk through a statement finds the names that are declared in it for the top
level. -/
theorem mem_visitStatement_iff {tree : ScopeTree}
    (hroot : ScopeTree.root < tree.size) (statement : Node) {name : String} :
    name ∈ (visitStatement tree statement).defines ↔
      ∃ site ∈ statement.sites none false [], ∃ place,
        site.Declares place ∧ place.name = name :=
  ((Records.defines name).visitStatement_iff hroot statement).trans
    (or_iff_right List.not_mem_nil)

end Declarations

section Recorded

variable {node : Node} {place : Occurrence} {isBlockScoped : Bool}
  {ownName : Option String} {isShorthand : Bool} {frames : List Frame}
  {site : Site}

/-- A pattern that binds a name is the name or has a part that binds it, and it
opens no scope. -/
theorem Node.boundNames_cases (hbound : place ∈ node.boundNames) :
    (∀ ownName, node.frame? ownName = none) ∧
      (node.readName? = some place ∨
        ∃ part ∈ node.parts, place ∈ part.2.boundNames) := by
  have hparts : place ∈ (node.parts.attach.flatMap fun part =>
        if part.1.1 = .expression then [] else part.1.2.boundNames) →
      ∃ part ∈ node.parts, place ∈ part.2.boundNames := by
    intro hmem
    obtain ⟨part, _, hmem⟩ := List.mem_flatMap.mp hmem
    split at hmem
    · exact absurd hmem List.not_mem_nil
    · exact ⟨part.1, part.2, hmem⟩
  obtain ⟨span, shape⟩ := node
  rw [boundNames] at hbound
  split at hbound
  · rename_i name hname
    obtain rfl : shape = .identPattern name := hname
    obtain rfl := List.mem_singleton.mp hbound
    exact ⟨fun _ => rfl, .inl rfl⟩
  · rename_i elements rest hshape
    obtain rfl : shape = .arrayPattern elements rest := hshape
    exact ⟨fun _ => rfl, .inr (hparts hbound)⟩
  · rename_i properties rest hshape
    obtain rfl : shape = .objectPattern properties rest := hshape
    exact ⟨fun _ => rfl, .inr (hparts hbound)⟩
  · rename_i key target isShorthand initial hshape
    obtain rfl : shape = .patternProperty key target isShorthand initial :=
      hshape
    exact ⟨fun _ => rfl, .inr (hparts hbound)⟩
  · exact absurd hbound List.not_mem_nil

/-- A name that a pattern binds stands at a site of the pattern, with nothing more
around it than around the pattern. -/
theorem Node.exists_site_of_boundNames (hbound : place ∈ node.boundNames) :
    ∃ site ∈ node.sites ownName isShorthand frames,
      site.node.readName? = some place ∧ site.frames = frames := by
  induction node using parts_induction
    generalizing ownName isShorthand frames with
  | hnode node ih =>
    obtain ⟨hframe, hfound⟩ := boundNames_cases hbound
    rw [sites_eq, hframe]
    rcases hfound with hread | ⟨part, hpart, hbound⟩
    · exact ⟨_, List.mem_cons_self, hread, rfl⟩
    · obtain ⟨site, hsite, hfound⟩ := ih part hpart hbound
      exact ⟨site, List.mem_cons_of_mem _
        (List.mem_flatMap.mpr ⟨part, hpart, hsite⟩), hfound⟩

/-- Where a name with a text is declared stands a name, with the same functions and
blocks around it. -/
theorem Site.exists_identifier
    (hsite : site ∈ node.sites ownName isShorthand frames)
    (hplace : (place, isBlockScoped) ∈ site.node.declaringPlaces)
    (htext : place.span.isEmpty = false) :
    ∃ identifier ∈ (node.sites ownName isShorthand frames).flatMap identifiers,
      identifier.reference.span = place.span ∧
        identifier.reference.name = place.name ∧
        identifier.frames = site.frames := by
  rcases Node.declaringPlaces_cases hplace with hname | ⟨part, hpart, hbound⟩
  · refine ⟨⟨⟨place.span, place.name, false⟩, site.frames⟩,
      List.mem_flatMap.mpr ⟨site, hsite, ?_⟩, rfl, rfl, rfl⟩
    refine List.mem_append_left _ (List.mem_append_right _ ?_)
    exact List.mem_map.mpr ⟨place, Option.mem_toList.mpr hname, rfl⟩
  · obtain ⟨other, hother, hread, hframes⟩ :=
      Node.exists_site_of_boundNames hbound
    refine ⟨⟨⟨place.span, place.name, other.isShorthand⟩, other.frames⟩,
      List.mem_flatMap.mpr ⟨other, Node.sites_part hsite hpart hother, ?_⟩,
      rfl, rfl, hframes⟩
    refine List.mem_append_right _ (List.mem_map.mpr ⟨place, ?_, rfl⟩)
    rw [List.mem_filter, Option.mem_toList, htext]
    exact ⟨hread, rfl⟩

/-- A name is recorded where it is declared, unless a function or block around binds
it as well. -/
theorem Site.exists_free (hsite : site ∈ node.sites ownName isShorthand frames)
    (hplace : (place, isBlockScoped) ∈ site.node.declaringPlaces)
    (htext : place.span.isEmpty = false)
    (hunbound : site.isBound place.name = false) :
    ∃ reference ∈ free (node.sites ownName isShorthand frames),
      reference.span = place.span ∧ reference.name = place.name := by
  obtain ⟨identifier, hidentifier, hspan, hname, hframes⟩ :=
    exists_identifier hsite hplace htext
  refine ⟨identifier.reference, List.mem_map.mpr ⟨identifier, ?_, rfl⟩,
    hspan, hname⟩
  have hfree : identifier.isBound = false := by
    rw [Identifier.isBound, hname, hframes]
    exact hunbound
  rw [List.mem_filter, hfree]
  exact ⟨hidentifier, rfl⟩

/-- So it is with what a statement declares for the top level. -/
theorem Site.exists_free_of_declares {statement : Node × StatementKind}
    (hsite : site ∈ ofStatement statement) (hdeclares : site.Declares place)
    (htext : place.span.isEmpty = false)
    (hunbound : site.isBound place.name = false) :
    ∃ reference ∈ free (ofStatement statement),
      reference.span = place.span ∧ reference.name = place.name := by
  obtain ⟨isBlockScoped, hplace, _⟩ := hdeclares
  rw [ofStatement] at hsite ⊢
  split at hsite
  · exact absurd hsite List.not_mem_nil
  · rename_i himport
    rw [if_neg himport]
    exact exists_free hsite hplace htext hunbound

end Recorded

/-! ### Names have a text -/

/-- A token that is a word has a text. -/
theorem isEmpty_span_of_isWord {mode : LexMode} {cursor : Cursor}
    (hword : (lexToken mode cursor).token.kind.isWord = true) :
    (lexToken mode cursor).token.span.isEmpty = false := by
  obtain ⟨c, hc, _⟩ := exists_head_of_isWord hword
  have hlonger : ∀ (start : Cursor) (lexeme : Lexeme) (lineBreak : Bool)
      (comments : List Comment),
      c ∈ (Lexed.ofLexeme start lexeme lineBreak
        comments).token.text.toList.head? →
      (Lexed.ofLexeme start lexeme lineBreak
        comments).token.span.isEmpty = false := by
    intro start lexeme lineBreak comments hc
    rw [Lexed.ofLexeme, String.toList_ofList] at hc
    obtain ⟨others, htaken⟩ := List.head?_eq_some_iff.mp hc
    have hsize := c.utf8Size_pos
    simp only [Lexed.ofLexeme, Cursor.advance, Span.isEmpty, htaken,
      Text.byteLength, decide_eq_false_iff_not]
    omega
  cases mode <;> exact hlonger _ _ _ _ hc

theorem TokenStream.Lexes.isEmpty_of_consumes {base : Nat}
    {stream : TokenStream} (h : stream.Lexes base) {token : Token}
    (htoken : TokenStream.Consumes base stream token)
    (hword : token.kind.isWord = true) : token.span.isEmpty = false := by
  obtain ⟨index, next, hbase, _, hnext, rfl⟩ := htoken
  rw [h.lexed index next hbase hnext] at hword ⊢
  exact isEmpty_span_of_isWord hword

/-- A name has a text, unless it is one that a word may imply. -/
theorem Naming.isEmpty_of_allows {first : Nat} {last : TokenStream}
    (hlast : last.Lexes first) {span : Span} {name : String}
    (hallows : (ofConsumed first last).Allows span name) :
    span.isEmpty = false ∨ name = "undefined" := by
  rcases hallows with ⟨token, htoken, hword, rfl, _⟩ | ⟨_, hname⟩
  · exact .inl (hlast.isEmpty_of_consumes htoken
      (TokenKind.isWord_of_mayName hword))
  · exact .inr hname

section Sites

variable {Allows : Span → String → Prop} {node : Node}
  {ownName : Option String} {isShorthand : Bool} {frames : List Frame}
  {site : Site}

theorem Node.Names.at_site (hnames : node.Names Allows)
    (hsite : site ∈ node.sites ownName isShorthand frames) :
    site.node.Names Allows := by
  induction node using Node.parts_induction
    generalizing ownName isShorthand frames with
  | hnode node ih =>
    rw [Node.sites_eq, List.mem_cons, List.mem_flatMap] at hsite
    rcases hsite with rfl | ⟨part, hpart, hsite⟩
    · exact hnames
    · exact ih part hpart (hnames.parts part hpart) hsite

theorem Node.allows_readName {found : Occurrence} (hnames : node.Names Allows)
    (hfound : node.readName? = some found) : Allows found.span found.name := by
  obtain ⟨span, shape⟩ := node
  rw [readName?] at hfound
  split at hfound
  · rename_i name hname
    obtain rfl : shape = .ident name := hname
    cases hfound
    exact hnames.name rfl
  · rename_i name hname
    obtain rfl : shape = .identPattern name := hname
    cases hfound
    exact hnames.name rfl
  · cases hfound

theorem Node.allows_nameOfDeclaration {found : Occurrence}
    (hnames : node.Names Allows) (hfound : found ∈ node.nameOfDeclaration?) :
    Allows found.span found.name := by
  obtain ⟨part, hpart, hdeclared⟩ := exists_part_of_nameOfDeclaration? hfound
  exact allows_declaredName (hnames.parts part hpart) hdeclared

theorem Node.exists_part_of_nameOfExpression? {found : Occurrence}
    (hfound : found ∈ node.nameOfExpression?) :
    ∃ part ∈ node.parts, part.2.declaredName? = some found := by
  obtain ⟨span, shape⟩ := node
  rw [nameOfExpression?] at hfound
  split at hfound
  · rename_i name func hshape
    obtain rfl : shape = .funcExpr name func := hshape
    obtain ⟨given, rfl, hdeclared⟩ := Option.bind_eq_some_iff.mp hfound
    exact ⟨_, List.mem_cons_self, hdeclared⟩
  · rename_i name heritage members hshape
    obtain rfl : shape = .classExpr name heritage members := hshape
    obtain ⟨given, rfl, hdeclared⟩ := Option.bind_eq_some_iff.mp hfound
    exact ⟨_, List.mem_cons_self, hdeclared⟩
  · cases hfound

theorem Node.allows_nameOfExpression {found : Occurrence}
    (hnames : node.Names Allows) (hfound : found ∈ node.nameOfExpression?) :
    Allows found.span found.name := by
  obtain ⟨part, hpart, hdeclared⟩ := exists_part_of_nameOfExpression? hfound
  exact allows_declaredName (hnames.parts part hpart) hdeclared

/-- Identifiers stand where names may stand. -/
theorem Site.allows_identifiers (hnames : site.node.Names Allows) :
    ∀ identifier ∈ site.identifiers,
      Allows identifier.reference.span identifier.reference.name := by
  intro identifier hidentifier
  simp only [identifiers, List.mem_append, List.mem_map, List.mem_filter,
    Option.mem_toList] at hidentifier
  rcases hidentifier with (⟨found, hfound, rfl⟩ | ⟨found, hfound, rfl⟩) |
    ⟨found, ⟨hfound, _⟩, rfl⟩
  · exact Node.allows_nameOfExpression hnames hfound
  · exact Node.allows_nameOfDeclaration hnames hfound
  · exact Node.allows_readName hnames hfound

/-- So do the references of a statement. -/
theorem Site.allows_free {statement : Node × StatementKind}
    (hnames : statement.1.Names Allows) :
    ∀ reference ∈ free (ofStatement statement),
      Allows reference.span reference.name := by
  intro reference hreference
  obtain ⟨identifier, hidentifier, rfl⟩ := List.mem_map.mp hreference
  obtain ⟨site, hsite, hidentifier⟩ :=
    List.mem_flatMap.mp (List.mem_filter.mp hidentifier).1
  rw [ofStatement] at hsite
  split at hsite
  · exact absurd hsite List.not_mem_nil
  · exact allows_identifiers (hnames.at_site hsite) identifier hidentifier

end Sites

namespace Analysis

variable {path : Path} {source : String} {program : Program}
  {analysis : Analysis}

/-- The first walk finds for each statement the names that are declared in it for
the top level, and the slot of a default value. -/
theorem mem_declareFrom_iff {tree : ScopeTree}
    (hroot : ScopeTree.root < tree.size)
    (statements : List (Node × StatementKind)) :
    List.Forall₂
      (fun (statement : Node × StatementKind) defines => ∀ name : String,
        name ∈ defines ↔
          statement.2.isDefaultValue = true ∧ name = defaultSlot ∨
          ∃ site ∈ Site.ofStatement statement, ∃ place,
            site.Declares place ∧ place.name = name)
      statements (declareFrom tree statements).2 := by
  induction statements generalizing tree with
  | nil => exact .nil
  | cons statement others ih =>
      have hnext := Nat.lt_of_lt_of_le hroot (size_le_declareOne hroot statement)
      refine .cons (fun name => ?_) (ih hnext)
      obtain ⟨statement, kind⟩ := statement
      cases himport : kind.isImport with
      | true =>
          obtain ⟨source, isBare, rfl⟩ : ∃ source isBare,
              kind = .importing source isBare := by
            cases kind <;> cases himport
            exact ⟨_, _, rfl⟩
          simp [declareOne, Site.ofStatement, StatementKind.isImport,
            StatementKind.isDefaultValue]
      | false =>
          have hsites : name ∈
              (Declarations.visitStatement tree statement).defines ↔ _ :=
            Declarations.mem_visitStatement_iff hroot statement
          simp only [declareOne, Site.ofStatement, himport, Bool.false_eq_true,
            if_false]
          rw [← hsites]
          cases hdefault : kind.isDefaultValue with
          | true => simp [or_comm]
          | false => simp

/-- What is defined by the statement at a place in a program. -/
theorem mem_defines_iff {statements : List (Node × StatementKind)} {id : Nat}
    {statement : Node × StatementKind} {defines : List String}
    (hstatement : statements[id]? = some statement)
    (hdefines : (declareAll statements).2[id]? = some defines) (name : String) :
    name ∈ defines ↔
      statement.2.isDefaultValue = true ∧ name = defaultSlot ∨
      ∃ site ∈ Site.ofStatement statement, ∃ place,
        site.Declares place ∧ place.name = name := by
  have hroot : ScopeTree.root < ScopeTree.initial.size := Nat.zero_lt_one
  rw [declareAll_eq] at hdefines
  have hpair : (statement, defines) ∈
      statements.zip (declareFrom ScopeTree.initial statements).2 :=
    List.mem_of_getElem? (List.getElem?_zip_eq_some.mpr ⟨hstatement, hdefines⟩)
  exact (List.forall₂_iff_zip.mp
    (mem_declareFrom_iff hroot statements)).2 hpair name

/-- References are recorded in the order of the source. -/
theorem pairwise_references
    (hanalysis : ofProgram path source program = .ok analysis) {id : Nat}
    {statement : Statement}
    (hstatement : analysis.statements[id]? = some statement) :
    statement.references.Pairwise (·.span.start ≤ ·.span.start) := by
  obtain ⟨kinds, usages, _, _, _, hstatements, _⟩ := ofProgram_eq_ok hanalysis
  rw [hstatements, List.getElem?_map, Option.map_eq_some_iff] at hstatement
  obtain ⟨⟨⟨node, kind⟩, defines, usage, layout⟩, _, rfl⟩ := hstatement
  have hsorted : usage.sortedReferences.Pairwise fun first second =>
      decide (first.span.start ≤ second.span.start) = true := by
    apply List.pairwise_mergeSort
    · intro first second third
      simp only [decide_eq_true_eq]
      exact Nat.le_trans
    · intro first second
      simp only [Bool.or_eq_true, decide_eq_true_eq]
      exact Nat.le_total _ _
  exact hsorted.imp of_decide_eq_true

/-- A place where a statement declares a name for the top level is one where names
may stand. -/
theorem allows_of_declares {Allows : Span → String → Prop}
    {statement : Node × StatementKind} (hnames : statement.1.Names Allows)
    {site : Site} (hsite : site ∈ Site.ofStatement statement)
    {place : Occurrence} (hdeclares : site.Declares place) :
    Allows place.span place.name := by
  obtain ⟨isBlockScoped, hplace, _⟩ := hdeclares
  rw [Site.ofStatement] at hsite
  split at hsite
  · exact absurd hsite List.not_mem_nil
  · exact Node.allows_declaringPlaces (hnames.at_site hsite) _ hplace

end Analysis

end Bundler
