import Bundler.Proofs.Analysis.Declared
import Bundler.Proofs.Lexer.LongestMatch

/-!
# Modules without imports and exports

The analysis of a module that neither imports nor exports anything cannot fail:
there is no import to bind twice or to write, and no export behind which there
could be nothing.  Its names are the words of its source, so none of them is a
pseudo name.
-/

namespace Bundler

/-- Whether a top-level statement is an import or an export. -/
def Node.isModuleItem (node : Node) : Bool :=
  match node.shape with
  | .importFrom _ _ _ | .exportItems _ _ | .exportAll _ _ | .exportDefault _
  | .exportDeclaration _ _ => true
  | _ => false

/-- A program neither imports nor exports anything. -/
def Program.IsPlain (program : Program) : Prop :=
  ∀ statement ∈ program.statements, statement.isModuleItem = false

namespace Interface

theorem addStatement_plain {text : List Char} {statement : Node}
    {interface : Interface} (hplain : statement.isModuleItem = false) :
    interface.addStatement text statement = .ok (.plain, interface) := by
  obtain ⟨span, shape⟩ := statement
  cases shape <;> first | rfl | cases hplain

/-- The interface of a program without imports and exports is empty. -/
theorem ofStatements_plain {text : List Char} {statements : List Node}
    (hplain : ∀ statement ∈ statements, statement.isModuleItem = false) :
    ofStatements text statements =
      .ok (List.replicate statements.length .plain, empty) := by
  have hfold : ∀ (step : List StatementKind × Interface → Node →
      Except Occurrence (List StatementKind × Interface)),
      (∀ kinds, ∀ statement ∈ statements,
        step (kinds, empty) statement = .ok (.plain :: kinds, empty)) →
      ∀ kinds, statements.foldlM step (kinds, empty) =
        .ok (List.replicate statements.length .plain ++ kinds, empty) := by
    intro step hstep
    induction statements with
    | nil => exact fun kinds => rfl
    | cons statement others ih =>
        intro kinds
        obtain ⟨-, hothers⟩ := List.forall_mem_cons.mp hplain
        rw [List.foldlM_cons, hstep kinds statement List.mem_cons_self]
        refine (ih hothers (fun kinds other hother =>
          hstep kinds other (List.mem_cons_of_mem statement hother))
          (.plain :: kinds)).trans ?_
        rw [List.length_cons, List.replicate_succ', List.append_assoc]
        rfl
  rw [ofStatements, hfold _ ?_ []]
  · simp [bind, Except.bind, pure, Except.pure]
  · intro kinds statement hstatement
    dsimp only
    rw [addStatement_plain (hplain statement hstatement)]
    rfl

end Interface

namespace Usage

variable {context : UsageContext}

/-- Where nothing is imported, no import is written. -/
theorem illegalWrite_visit (himports : context.imports = []) (node : Node)
    (isShorthand : Bool) (scope : Nat) {usage : Usage}
    (hnone : usage.illegalWrite = none) :
    (visit context isShorthand scope node usage).illegalWrite = none := by
  induction node using Node.parts_induction
    generalizing isShorthand scope usage with
  | hnode node ih =>
    have hwrite : ∀ inner isCertain {later : Usage},
        later.illegalWrite = none → ∀ found,
          (context.write inner isCertain later found).illegalWrite = none := by
      intro inner isCertain later hlater found
      rw [UsageContext.write, himports]
      split
      · exact hlater
      · simpa using hlater
    have hread : ∀ inner {later : Usage}, later.illegalWrite = none →
        ∀ found, (context.read inner isShorthand later found).illegalWrite =
          none := by
      intro inner later hlater found
      rw [UsageContext.read]
      split <;> exact hlater
    have hdeclared : ∀ inner {later : Usage}, later.illegalWrite = none →
        ∀ found, (context.nameDeclared inner later found).illegalWrite =
          none := by
      intro inner later hlater found
      rw [UsageContext.nameDeclared]
      split <;> exact hlater
    have hentered : (usage.enter scope (node.newScope? none)).2.illegalWrite =
        none := by
      rw [enter]
      split <;> exact hnone
    rw [visit]
    generalize usage.enter scope (node.newScope? none) = entering at *
    obtain ⟨inner, used⟩ := entering
    refine List.foldlRecOn _ _ (motive := (illegalWrite · = none)) ?_
      fun later hlater part _ => ih part.1 part.2 _ inner hlater
    refine List.foldlRecOn _ _ (motive := (illegalWrite · = none)) ?_
      fun later hlater found _ => hread inner hlater found
    refine List.foldlRecOn _ _ (motive := (illegalWrite · = none)) ?_
      fun later hlater found _ => hdeclared inner hlater found
    refine List.foldlRecOn _ _ (motive := (illegalWrite · = none)) ?_
      fun later hlater found _ => hwrite inner false hlater found
    exact List.foldlRecOn _ _ (motive := (illegalWrite · = none)) hentered
      fun later hlater found _ => hwrite inner true hlater found

end Usage

namespace Analysis

/-- Where nothing is imported, the second walk goes on to the end. -/
theorem exists_useAll_eq_ok (tree : ScopeTree)
    (statements : List ((Node × StatementKind) × List String)) :
    ∃ usages, useAll tree [] statements = .ok usages := by
  have hstep : ∀ statement ∈ statements, ∀ before, True →
      ∃ after, useOne tree [] before statement = .ok after ∧ True := by
    rintro ⟨⟨statement, kind⟩, defines⟩ _ ⟨seen, usages⟩ _
    rw [useOne]
    split
    · exact ⟨_, rfl, trivial⟩
    · have hnone : (Usage.visitStatement ⟨tree, [], defines⟩ seen
          statement).illegalWrite = none :=
        Usage.illegalWrite_visit rfl statement false _ rfl
      dsimp only
      rw [hnone]
      exact ⟨_, rfl, trivial⟩
  have hfold : ∃ found,
      statements.foldlM (useOne tree []) (0, []) = .ok found ∧ True :=
    Except.exists_foldlM_eq_ok _ _ _ hstep trivial
  obtain ⟨found, hfound, _⟩ := hfold
  rw [useAll_eq, hfound]
  exact ⟨_, rfl⟩

variable {path : Path} {source : String} {program : Program}
  {analysis : Analysis}

/-- A program without imports and exports can be analysed. -/
theorem exists_ofProgram_eq_ok (path : Path) (source : String)
    (hplain : program.IsPlain) :
    ∃ analysis, ofProgram path source program = .ok analysis := by
  obtain ⟨usages, husages⟩ := exists_useAll_eq_ok
    (declareAll (program.statements.zip
      (List.replicate program.statements.length .plain))).1
    ((program.statements.zip
      (List.replicate program.statements.length .plain)).zip
        (declareAll (program.statements.zip
          (List.replicate program.statements.length .plain))).2)
  rw [ofProgram]
  dsimp only
  rw [Interface.ofStatements_plain hplain]
  have hnone : ∀ tree defines,
      undefinedExport? tree Interface.empty defines = none := fun _ _ => rfl
  simp only [Except.mapError, bind, Except.bind, hnone,
    show Interface.empty.imports.keys = [] from rfl, husages]
  exact ⟨_, rfl⟩

/-- The statements of an analysis stand where they stand in the program, with
the layouts found there. -/
theorem map_layout_of_ofProgram
    (hanalysis : ofProgram path source program = .ok analysis) :
    analysis.statements.map (·.span) = program.statements.map (·.span) ∧
      analysis.statements.map (·.layout) =
        Layout.ofStatements source.toList (program.statements.map (·.span))
          program.comments := by
  obtain ⟨kinds, usages, hkinds, htree, huse, hstatements, _⟩ :=
    ofProgram_eq_ok hanalysis
  have hordered : analysis.tree.IsOrdered :=
    htree ▸ Declarations.isOrdered_declareAll _
  have husages := (useAll_accounts hordered htree huse).length_eq
  have hkindsLength := Interface.length_ofStatements hkinds
  have hlayouts := Layout.length_ofStatements source.toList
    (program.statements.map (·.span)) program.comments
  rw [List.length_map] at hlayouts
  rw [declareAll_eq, length_declareFrom, List.length_zip, hkindsLength,
    Nat.min_self] at husages
  rw [hstatements]
  generalize Layout.ofStatements source.toList
    (program.statements.map (·.span)) program.comments = layouts at hlayouts ⊢
  generalize hdefines :
    (declareAll (program.statements.zip kinds)).2 = defines
  have hdefinesLength : defines.length = program.statements.length := by
    rw [← hdefines, declareAll_eq, length_declareFrom, List.length_zip,
      hkindsLength, Nat.min_self]
  constructor
  · calc
      _ = ((((program.statements.zip kinds).zip
            (defines.zip (usages.zip layouts))).map Prod.fst).map
              Prod.fst).map (·.span) := by
          simp only [List.map_map]
          rfl
      _ = ((program.statements.zip kinds).map Prod.fst).map (·.span) := by
          rw [List.map_fst_zip]
          simp [hdefinesLength, ← husages, hlayouts, hkindsLength]
      _ = program.statements.map (·.span) := by
          rw [List.map_fst_zip (Nat.le_of_eq hkindsLength.symm)]
  · calc
      _ = ((((program.statements.zip kinds).zip
            (defines.zip (usages.zip layouts))).map Prod.snd).map
              Prod.snd).map Prod.snd := by
          simp only [List.map_map]
          rfl
      _ = ((defines.zip (usages.zip layouts)).map Prod.snd).map Prod.snd := by
          rw [List.map_snd_zip]
          simp [hdefinesLength, ← husages, hlayouts, hkindsLength]
      _ = (usages.zip layouts).map Prod.snd := by
          rw [List.map_snd_zip]
          simp [hdefinesLength, ← husages, hlayouts]
      _ = layouts := by
          rw [List.map_snd_zip (Nat.le_of_eq (hlayouts.trans husages))]

/-- The statements of a program without imports and exports are plain, and its
interface is empty. -/
theorem plain_of_ofProgram (hplain : program.IsPlain)
    (hanalysis : ofProgram path source program = .ok analysis) :
    analysis.interface = .empty ∧
      ∀ statement ∈ analysis.statements, statement.kind = .plain := by
  obtain ⟨kinds, usages, hkinds, _⟩ := ofProgram_eq_ok hanalysis
  have hknown := hkinds
  rw [Interface.ofStatements_plain hplain] at hknown
  obtain ⟨rfl, hinterface⟩ := Prod.mk.inj (Except.ok.inj hknown)
  refine ⟨hinterface.symm, fun statement hstatement => ?_⟩
  obtain ⟨id, hid⟩ := List.getElem?_of_mem hstatement
  obtain ⟨found, hfound, hkind, _⟩ :=
    exists_statement_of_ofProgram hanalysis hkinds hid
  rw [hkind]
  exact List.eq_of_mem_replicate
    (List.of_mem_zip (List.mem_of_getElem? hfound)).2

end Analysis

/-- A token that may name something is none of the reserved words. -/
theorem mayName_of_ofText? {mode : LexMode} {cursor : Cursor}
    (hname : (lexToken mode cursor).token.kind.mayName = true)
    {keyword : Keyword}
    (hspelled : Keyword.ofText? (lexToken mode cursor).token.text =
      some keyword) : (TokenKind.keyword keyword).mayName = true := by
  cases hkind : (lexToken mode cursor).token.kind with
  | identifier =>
      rw [ofText?_of_isIdentifier hkind] at hspelled
      cases hspelled
  | keyword found =>
      rw [(lexToken_keyword hkind).1, Keyword.ofText?_text] at hspelled
      rwa [hkind, Option.some.inj hspelled] at hname
  | _ =>
      rw [hkind] at hname
      cases hname

/-- A name that stands where words are consumed is no reserved word. -/
theorem Naming.mayName_of_knows {base : Nat} {stream : TokenStream}
    (h : stream.Lexes base) {name : String}
    (hknows : (ofConsumed base stream).Knows name) {keyword : Keyword}
    (hspelled : Keyword.ofText? name = some keyword) :
    (TokenKind.keyword keyword).mayName = true := by
  obtain ⟨span, ⟨token, ⟨index, next, hbase, _, hnext, rfl⟩, hword, _, rfl⟩ |
    ⟨_, rfl⟩⟩ := hknows
  · rw [h.lexed index next hbase hnext] at hword hspelled
    exact mayName_of_ofText? hword hspelled
  · rw [show Keyword.ofText? "undefined" = none by decide] at hspelled
    cases hspelled

/-- A pseudo name is none that a source can spell. -/
def IsPseudoName (name : String) : Prop :=
  name = defaultSlot ∨ name = namespaceSlot

theorem Naming.not_isPseudoName_of_knows {base : Nat} {stream : TokenStream}
    (h : stream.Lexes base) {name : String}
    (hknows : (ofConsumed base stream).Knows name) : ¬ IsPseudoName name := by
  rintro (rfl | rfl)
  · exact absurd (mayName_of_knows h hknows
      (show Keyword.ofText? defaultSlot = some .defaultWord by decide))
        (by decide)
  · obtain ⟨c, hc, hopens⟩ := exists_head_of_knows h hknows
    obtain rfl : '*' = c := Option.some.inj hc
    exact absurd hopens (by decide)

namespace Analysis

variable {path : Path} {source : String} {program : Program}
  {analysis : Analysis}

/-- The names that the statements of a program without exports define and refer
to are those of the source. -/
theorem not_isPseudoName_of_plain (hparse : Program.parse source = .ok program)
    (hplain : program.IsPlain)
    (hanalysis : ofProgram path source program = .ok analysis)
    {statement : Statement} (hstatement : statement ∈ analysis.statements) :
    (∀ name ∈ statement.defines, ¬ IsPseudoName name) ∧
      ∀ reference ∈ statement.references, ¬ IsPseudoName reference.name := by
  obtain ⟨last, hlast, hfits⟩ := Program.fits_of_parse hparse
  obtain ⟨kinds, usages, hkinds, _⟩ := ofProgram_eq_ok hanalysis
  obtain ⟨id, hid⟩ := List.getElem?_of_mem hstatement
  obtain ⟨found, hfound, hkind, _, hdefines, hreferences⟩ :=
    exists_statement_of_ofProgram hanalysis hkinds hid
  have hnode := hfits found.1
    (List.of_mem_zip (List.mem_of_getElem? hfound)).1
  have hvalue : found.2.isDefaultValue = false := by
    rw [← hkind, (plain_of_ofProgram hplain hanalysis).2 statement hstatement]
    rfl
  constructor
  · intro name hname
    rw [mem_defines_iff hfound hdefines, hvalue] at hname
    obtain ⟨site, hsite, place, hdeclares, rfl⟩ :=
      hname.resolve_left fun hdefault => by cases hdefault.1
    exact Naming.not_isPseudoName_of_knows hlast
      ⟨place.span, allows_of_declares hnode.names hsite hdeclares⟩
  · intro reference hreference
    have hfree := hreferences.mem_iff.mp hreference
    exact Naming.not_isPseudoName_of_knows hlast
      ⟨reference.span, Site.allows_free hnode.names reference hfree⟩

end Analysis

end Bundler
