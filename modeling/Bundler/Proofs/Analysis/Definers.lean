import Bundler.Proofs.Analysis.Growth
import Bundler.Proofs.Graph.Reachable
import Bundler.Proofs.Lexer.Words
import Bundler.Proofs.Parser.Names
import Mathlib.Data.List.Forall2

/-!
# Definers of names

What a statement names outside its functions and blocks it reads or declares,
and behind an export there is an import or a statement that declares it.  The two
walks through a module meet the same scopes: the tree of the first has one scope
more than the second has counted at the same place.  So a function or class whose
name the second walk finds at the top level was declared there by the first.

The names that a statement defines are declared somewhere in it, so they are
words of the source, but for the slot of a default export.  No word is the
pseudo name of the object that holds all exports.
-/

namespace Bundler

namespace Usage

variable {context : UsageContext} {usage : Usage} {scope : Nat}

/-- A scope is counted for each one that is created, whatever name a function
expression has within itself. -/
theorem enter_inStep {state : Declarations} (scope : Nat) (node : Node)
    (ownName : Option String)
    (hsize : state.tree.size = usage.scopesSeen + 1) :
    (state.enter scope (node.newScope? ownName)).1 =
        (usage.enter scope (node.newScope? none)).1 ∧
      (state.enter scope (node.newScope? ownName)).2.tree.size =
        (usage.enter scope (node.newScope? none)).2.scopesSeen + 1 := by
  have hsame : (node.newScope? ownName).isSome =
      (node.newScope? none).isSome := by
    unfold Node.newScope?
    split <;> rfl
  rw [Usage.enter, ← hsame]
  cases node.newScope? ownName with
  | none => exact ⟨rfl, hsize⟩
  | some new =>
      refine ⟨hsize, ?_⟩
      change (state.tree.create scope new.parameters new.isBlock).2.size = _
      rw [ScopeTree.size_create, hsize]
      rfl

/-- A usage that has counted all but one of some scopes and in which every name
that there is a reference of is one that the statement reads or declares. -/
structure Accounts (context : UsageContext) (size : Nat) (usage : Usage) :
    Prop where
  size : size = usage.scopesSeen + 1
  references : ∀ reference ∈ usage.references,
    reference.name ∈ usage.dependsOn ∨ reference.name ∈ context.defines

namespace Accounts

variable {size : Nat}

theorem write (haccounts : Accounts context size usage) (isCertain : Bool)
    (found : Occurrence) :
    Accounts context size (context.write scope isCertain usage found) := by
  rw [UsageContext.write]
  split
  · exact haccounts
  · split
    · exact ⟨haccounts.size, haccounts.references⟩
    · exact ⟨haccounts.size, haccounts.references⟩

theorem nameDeclared (haccounts : Accounts context size usage)
    {found : Occurrence}
    (hdefines : context.isModuleLevel scope found.name = true →
      found.name ∈ context.defines) :
    Accounts context size (context.nameDeclared scope usage found) := by
  rw [UsageContext.nameDeclared]
  split
  · rename_i hlevel
    refine ⟨haccounts.size, fun reference hreference => ?_⟩
    cases List.mem_append.mp hreference with
    | inl hold => exact haccounts.references reference hold
    | inr hlast =>
        rw [List.mem_singleton.mp hlast]
        exact .inr (hdefines hlevel)
  · exact haccounts

theorem read (haccounts : Accounts context size usage) (isShorthand : Bool)
    (found : Occurrence) :
    Accounts context size (context.read scope isShorthand usage found) := by
  rw [UsageContext.read]
  split
  · exact haccounts
  · refine ⟨haccounts.size, fun reference hreference => ?_⟩
    by_cases hown : found.name ∈ context.defines
    · simp only [List.contains_iff_mem, hown, if_true] at hreference ⊢
      cases List.mem_append.mp hreference with
      | inl hold => exact haccounts.references reference hold
      | inr hlast =>
          rw [List.mem_singleton.mp hlast]
          exact .inr hown
    · simp only [List.contains_iff_mem, hown] at hreference ⊢
      cases List.mem_append.mp hreference with
      | inl hold =>
          exact (haccounts.references reference hold).imp_left
            fun hread => mem_pushNew.mpr (.inl hread)
      | inr hlast =>
          rw [List.mem_singleton.mp hlast]
          exact .inl (mem_pushNew.mpr (.inr rfl))

theorem enter {state : Declarations} (scope : Nat) (node : Node)
    (ownName : Option String)
    (haccounts : Accounts context state.tree.size usage) :
    (state.enter scope (node.newScope? ownName)).1 =
        (usage.enter scope (node.newScope? none)).1 ∧
      Accounts context (state.enter scope (node.newScope? ownName)).2.tree.size
        (usage.enter scope (node.newScope? none)).2 := by
  obtain ⟨hsame, hsize⟩ := enter_inStep scope node ownName haccounts.size
  refine ⟨hsame, hsize, ?_⟩
  rw [Usage.enter]
  split <;> exact haccounts.references

end Accounts

/-- The scopes and definitions found so far are among those that a walk goes
by. -/
structure Knows (context : UsageContext) (state : Declarations) : Prop where
  tree : state.tree.Extends context.tree
  defines : ∀ name ∈ state.defines, name ∈ context.defines

theorem Knows.of_grows {before after : Declarations}
    (hknows : Knows context after) (hgrows : before.Grows after) :
    Knows context before where
  tree := hgrows.tree.trans hknows.tree
  defines name hname := hknows.defines name (hgrows.defines name hname)

/-- A function or class whose name is found at the top level was declared
there. -/
theorem Knows.mem_defines (hordered : context.tree.IsOrdered) {node : Node}
    {state : Declarations} {found : Occurrence}
    (hknows : Knows context
      (node.declarations.foldl (Declarations.declare scope) state))
    (hscope : scope < state.tree.size)
    (hfound : found ∈ node.nameOfDeclaration?)
    (hlevel : context.isModuleLevel scope found.name = true) :
    found.name ∈ context.defines := by
  rw [Node.declarations_of_nameOfDeclaration? hfound, List.foldl_cons,
    List.foldl_nil] at hknows
  by_cases hhome : (state.tree.declare scope found.name false).1 =
      ScopeTree.root
  · apply hknows.defines
    simp only [Declarations.declare, hhome, if_true]
    exact mem_pushNew.mpr (.inr rfl)
  · have hbinds := hknows.tree.bindsAround
      (ScopeTree.bindsAround_declare hscope hhome)
    rw [hordered.bindsAround_iff] at hbinds
    rw [UsageContext.isModuleLevel, decide_eq_true_eq] at hlevel
    rw [hlevel] at hbinds
    simp at hbinds

/-- Two folds in step stay in step as long as the first one goes where it ends
in the end. -/
private theorem foldl_inStep {α β γ : Type} {first : α → γ → α}
    {second : β → γ → β} (InStep : α → β → Prop) (Ends : α → Prop)
    {values : List γ}
    (hends : ∀ value ∈ values, ∀ state, Ends (first state value) → Ends state)
    (hstep : ∀ value ∈ values, ∀ state other, InStep state other →
      Ends (first state value) →
      InStep (first state value) (second other value))
    {state : α} {other : β} (hstart : InStep state other)
    (hend : Ends (values.foldl first state)) :
    InStep (values.foldl first state) (values.foldl second other) := by
  have hback : ∀ (values : List γ) (state : α),
      (∀ value ∈ values, ∀ state, Ends (first state value) → Ends state) →
      Ends (values.foldl first state) → Ends state := by
    intro values
    induction values with
    | nil => exact fun _ _ => id
    | cons value values ih =>
        intro state hends hend
        exact hends value List.mem_cons_self state (ih _
          (fun other hother => hends other (List.mem_cons_of_mem value hother))
          hend)
  induction values generalizing state other with
  | nil => exact hstart
  | cons value values ih =>
      have hothers : ∀ other ∈ values, ∀ state, Ends (first state other) →
          Ends state := fun other hother =>
        hends other (List.mem_cons_of_mem value hother)
      exact ih hothers
        (fun other hother => hstep other (List.mem_cons_of_mem value hother))
        (hstep value List.mem_cons_self state other hstart
          (hback values _ hothers hend)) hend

/-- The second walk accounts for the references of a node if the first one came
by the node at the same place. -/
theorem accounts_visit (hordered : context.tree.IsOrdered) (node : Node)
    (ownName : Option String) (isShorthand : Bool) {scope : Nat}
    {state : Declarations} {usage : Usage} (hscope : scope < state.tree.size)
    (haccounts : Accounts context state.tree.size usage)
    (hknows : Knows context (Declarations.visit ownName scope node state)) :
    Accounts context (Declarations.visit ownName scope node state).tree.size
      (visit context isShorthand scope node usage) := by
  induction node using Node.parts_induction
    generalizing ownName isShorthand scope state usage with
  | hnode node ih =>
    rw [Declarations.visit] at hknows ⊢
    rw [visit]
    obtain ⟨hsame, hentered⟩ := haccounts.enter scope node ownName
    have hinner := (Declarations.adds_enter hscope (node.newScope? ownName)).2
    generalize state.enter scope (node.newScope? ownName) = entering at *
    generalize usage.enter scope (node.newScope? none) = counting at *
    obtain ⟨inner, entered⟩ := entering
    obtain ⟨other, used⟩ := counting
    obtain rfl : inner = other := hsame
    have hcertain : Accounts context entered.tree.size
        (node.certainWrites.foldl (context.write inner true) used) :=
      List.foldlRecOn _ _ hentered fun _ hlater found _ =>
        hlater.write true found
    have hpossible : Accounts context entered.tree.size
        (node.possibleWrites.foldl (context.write inner false) _) :=
      List.foldlRecOn _ _ hcertain fun _ hlater found _ =>
        hlater.write false found
    have hsize : ∀ declared : List (String × Bool),
        (declared.foldl (Declarations.declare inner) entered).tree.size =
          entered.tree.size := fun declared =>
      List.foldlRecOn declared _
        (motive := fun later : Declarations =>
          later.tree.size = entered.tree.size) rfl
        fun _ hlater _ _ => ScopeTree.size_bind.trans hlater
    have hknowsDeclared : Knows context
        (node.declarations.foldl (Declarations.declare inner) entered) :=
      hknows.of_grows (List.foldlRecOn _ _ (.refl _) fun later hlater part _ =>
        hlater.trans (Declarations.grows_visit part.1.2 node.ownName? inner later))
    have hnamed : Accounts context entered.tree.size
        (node.nameOfDeclaration?.toList.foldl (context.nameDeclared inner) _) :=
      List.foldlRecOn _ _ hpossible fun _ hlater found hfound =>
        hlater.nameDeclared (hknowsDeclared.mem_defines hordered hinner
          (Option.mem_toList.mp hfound))
    have hread : Accounts context entered.tree.size
        (node.readName?.toList.foldl (context.read inner isShorthand) _) :=
      List.foldlRecOn _ _ hnamed fun _ hlater found _ =>
        hlater.read isShorthand found
    rw [← hsize node.declarations] at hread hinner
    refine (foldl_inStep
      (fun (state : Declarations) (usage : Usage) =>
        inner < state.tree.size ∧ Accounts context state.tree.size usage)
      (Knows context) ?_ ?_ ⟨hinner, hread⟩ hknows).2
    · intro part _ later hlater
      exact hlater.of_grows (Declarations.grows_visit _ _ _ later)
    · rintro part _ later usage ⟨hinside, hcount⟩ hlater
      have hadds := Declarations.adds_visit part.1.2 node.ownName? hinside
      exact ⟨Nat.lt_of_lt_of_le hinside hadds.size,
        ih part.1 part.2 node.ownName? _ hinside hcount hlater⟩

end Usage

namespace Analysis

variable {tree : ScopeTree} {statements : List (Node × StatementKind)}

/-- The second walk accounts for the references of a statement. -/
theorem visitStatement_accounts {final : ScopeTree} (imports : List String)
    {statement : Node} {kind : StatementKind} {seen : Nat}
    (hordered : final.IsOrdered) (himport : kind.isImport = false)
    (hroot : ScopeTree.root < tree.size) (hcount : tree.size = seen + 1)
    (hextends : (declareOne tree (statement, kind)).1.Extends final) :
    Usage.Accounts ⟨final, imports, (declareOne tree (statement, kind)).2⟩
      (declareOne tree (statement, kind)).1.size
      (Usage.visitStatement
        ⟨final, imports, (declareOne tree (statement, kind)).2⟩ seen
        statement) := by
  have hstart : Usage.Accounts
      ⟨final, imports, (declareOne tree (statement, kind)).2⟩ tree.size
      ⟨seen, [], [], [], none⟩ := ⟨hcount, by simp⟩
  have htree : (declareOne tree (statement, kind)).1 =
      (Declarations.visitStatement tree statement).tree := by
    simp [declareOne, himport]
  have hknows : Usage.Knows
      ⟨final, imports, (declareOne tree (statement, kind)).2⟩
      (Declarations.visitStatement tree statement) := by
    exact ⟨htree ▸ hextends, fun name => mem_declareOne himport⟩
  rw [htree]
  have hstate : ScopeTree.root < (Declarations.mk tree []).tree.size := hroot
  exact Usage.accounts_visit hordered statement none false hstate hstart hknows

/-- What the second walk has found after one more statement. -/
def useOne (tree : ScopeTree) (imports : List String) :
    Nat × List Usage → (Node × StatementKind) × List String →
      Except Occurrence (Nat × List Usage)
  | (seen, usages), ((statement, kind), defines) =>
      if kind.isImport then .ok (seen, noUsage seen :: usages)
      else
        let found :=
          Usage.visitStatement ⟨tree, imports, defines⟩ seen statement
        match found.illegalWrite with
        | some written => .error written
        | none => .ok (found.scopesSeen, found :: usages)

theorem useAll_eq (final : ScopeTree) (imports : List String)
    (statements : List ((Node × StatementKind) × List String)) :
    useAll final imports statements =
      (statements.foldlM (useOne final imports) (0, [])).map
        (·.2.reverse) :=
  rfl

/-- The usages that the second walk finds from some statement on account for the
references of each one. -/
theorem useFrom_accounts {final : ScopeTree} {imports : List String}
    (hordered : final.IsOrdered) {seen : Nat} {reversed : List Usage}
    {tree : ScopeTree} {start : Nat × List Usage}
    (hroot : ScopeTree.root < tree.size) (hcount : tree.size = start.1 + 1)
    (hextends : (declareFrom tree statements).1.Extends final)
    (hfold : (statements.zip (declareFrom tree statements).2).foldlM
      (useOne final imports) start = .ok (seen, reversed)) :
    ∃ found, reversed = found.reverse ++ start.2 ∧
      List.Forall₂ (fun defines usage => ∀ reference ∈ usage.references,
          reference.name ∈ usage.dependsOn ∨ reference.name ∈ defines)
        (declareFrom tree statements).2 found := by
  induction statements generalizing tree start with
  | nil =>
      obtain ⟨rfl, rfl⟩ := Prod.mk.inj (Except.ok.inj hfold)
      exact ⟨[], rfl, .nil⟩
  | cons statement others ih =>
      obtain ⟨count, usages⟩ := start
      obtain ⟨statement, kind⟩ := statement
      rw [declareFrom, List.zip_cons_cons, List.foldlM_cons] at hfold
      obtain ⟨next, hfirst, hrest⟩ := Except.bind_eq_ok_iff.mp hfold
      rw [declareFrom] at hextends ⊢
      have hfirstExtends :=
        (extends_declareFrom (declareOne tree (statement, kind)).1
          others).trans hextends
      have hstill := Nat.lt_of_lt_of_le hroot
        (size_le_declareOne hroot (statement, kind))
      cases himport : kind.isImport with
      | true =>
          simp only [useOne, himport, if_true, Except.ok.injEq] at hfirst
          subst hfirst
          have hsame : (declareOne tree (statement, kind)).1 = tree := by
            simp [declareOne, himport]
          obtain ⟨found, rfl, hfound⟩ :=
            ih hstill (by rw [hsame]; exact hcount) hextends hrest
          refine ⟨noUsage count :: found, by simp, .cons ?_ hfound⟩
          exact fun reference hreference =>
            absurd hreference List.not_mem_nil
      | false =>
          simp only [useOne, himport, Bool.false_eq_true, if_false] at hfirst
          have haccounts := visitStatement_accounts imports
            hordered himport hroot hcount hfirstExtends
          split at hfirst
          · cases hfirst
          · obtain rfl := Except.ok.inj hfirst
            obtain ⟨found, rfl, hfound⟩ :=
              ih hstill haccounts.size hextends hrest
            exact ⟨_ :: found, by simp, .cons haccounts.references hfound⟩

/-- The usages that the second walk finds account for the references of each
statement. -/
theorem useAll_accounts {final : ScopeTree} {imports : List String}
    (hordered : final.IsOrdered) {usages : List Usage}
    (hfinal : final = (declareAll statements).1)
    (huse : useAll final imports (statements.zip (declareAll statements).2) =
      .ok usages) :
    List.Forall₂ (fun defines usage => ∀ reference ∈ usage.references,
        reference.name ∈ usage.dependsOn ∨ reference.name ∈ defines)
      (declareAll statements).2 usages := by
  rw [declareAll_eq] at hfinal huse ⊢
  rw [useAll_eq] at huse
  obtain ⟨⟨seen, reversed⟩, hfold, rfl⟩ := Except.map_eq_ok_iff.mp huse
  have hroot : ScopeTree.root < ScopeTree.initial.size := Nat.zero_lt_one
  obtain ⟨found, rfl, hfound⟩ :=
    useFrom_accounts hordered hroot rfl (hfinal ▸ .refl _) hfold
  simpa using hfound

end Analysis

namespace Layout

theorem length_gaps (text : List Char) (isFirst : Bool) (previous : Nat)
    (statements : List Span) (comments : List Comment) :
    (gaps text isFirst previous statements comments).1.length =
      statements.length := by
  induction statements generalizing isFirst previous comments with
  | nil => rfl
  | cons statement others ih => simp [gaps, ih]

theorem length_ofGaps (last : Option Comment) (found : List Gap) :
    (ofGaps last found).length = found.length := by
  induction found with
  | nil => rfl
  | cons before others ih =>
      cases others with
      | nil => rfl
      | cons after others => simpa [ofGaps] using ih

theorem length_ofStatements (text : List Char) (statements : List Span)
    (comments : List Comment) :
    (ofStatements text statements comments).length = statements.length := by
  rw [ofStatements, length_ofGaps, length_gaps]

end Layout

namespace Interface

/-- A statement is found to be of a kind when it is added to some interface. -/
def IsKind (text : List Char) (statement : Node) (kind : StatementKind) : Prop :=
  ∃ before after : Interface,
    before.addStatement text statement = .ok (kind, after)

/-- Every statement has its kind. -/
theorem forall₂_ofStatements {text : List Char} {statements : List Node}
    {kinds : List StatementKind} {interface : Interface}
    (hstatements : ofStatements text statements = .ok (kinds, interface)) :
    List.Forall₂ (IsKind text) statements kinds := by
  rw [ofStatements] at hstatements
  obtain ⟨⟨reversed, found⟩, hfold, hresult⟩ :=
    Except.bind_eq_ok_iff.mp hstatements
  obtain ⟨rfl, rfl⟩ := Prod.mk.inj (Except.ok.inj hresult)
  have hgiven := Except.foldlM_forall₂
    (fun state : List StatementKind × Interface => state.1) (IsKind text) ?_
    hfold
  · obtain ⟨kinds, hkinds, hall⟩ := hgiven
    obtain rfl : reversed = kinds.reverse ++ [] := hkinds
    simpa using hall
  · rintro statement ⟨kinds, before⟩ _ hstep
    obtain ⟨⟨kind, after⟩, hadd, hnext⟩ := Except.bind_eq_ok_iff.mp hstep
    obtain rfl := Except.ok.inj hnext
    exact ⟨kind, rfl, before, after, hadd⟩

theorem length_ofStatements {text : List Char} {statements : List Node}
    {kinds : List StatementKind} {interface : Interface}
    (hstatements : ofStatements text statements = .ok (kinds, interface)) :
    kinds.length = statements.length :=
  (forall₂_ofStatements hstatements).length_eq.symm

end Interface

namespace Analysis

variable {path : Path} {source : String} {program : Program}
  {analysis : Analysis}

/-- Something stands behind each export of an analysis that succeeds. -/
theorem isDefined_of_ofProgram {kinds : List StatementKind}
    {interface : Interface}
    (hkinds : Interface.ofStatements source.toList program.statements =
      .ok (kinds, interface))
    (hanalysis : ofProgram path source program = .ok analysis) :
    ∀ exported ∈ interface.exports.entries.map (·.2),
      isDefined (declareAll (program.statements.zip kinds)).1 interface
        (declareAll (program.statements.zip kinds)).2 exported = true := by
  intro exported hexported
  by_contra hundefined
  rw [ofProgram, hkinds] at hanalysis
  cases hmissing : undefinedExport?
      (declareAll (program.statements.zip kinds)).1 interface
      (declareAll (program.statements.zip kinds)).2 with
  | none =>
      have hnone := List.find?_eq_none.mp hmissing exported hexported
      simp [hundefined] at hnone
  | some missing =>
      obtain ⟨found, hfound, hanalysis⟩ := Except.bind_eq_ok_iff.mp hanalysis
      obtain rfl := Except.ok.inj hfound
      simp only [hmissing] at hanalysis
      cases hanalysis

/-- What a statement names outside its functions and blocks it reads or
declares. -/
theorem reads_or_defines_of_ofProgram
    (hanalysis : ofProgram path source program = .ok analysis)
    {statement : Statement} (hstatement : statement ∈ analysis.statements)
    {reference : Reference} (hreference : reference ∈ statement.references) :
    reference.name ∈ statement.dependsOn ∨
      reference.name ∈ statement.defines := by
  obtain ⟨kinds, usages, _, htree, huse, hstatements, _⟩ :=
    ofProgram_eq_ok hanalysis
  have hordered : analysis.tree.IsOrdered :=
    htree ▸ Declarations.isOrdered_declareAll _
  have haccounts := useAll_accounts hordered htree huse
  rw [hstatements, List.mem_map] at hstatement
  obtain ⟨⟨⟨node, kind⟩, defines, usage, layout⟩, hmem, rfl⟩ := hstatement
  have hfound : (defines, usage) ∈
      (declareAll (program.statements.zip kinds)).2.zip usages := by
    obtain ⟨index, hindex⟩ := List.mem_iff_getElem?.mp hmem
    simp only [List.getElem?_zip_eq_some] at hindex
    exact List.mem_iff_getElem?.mpr
      ⟨index, List.getElem?_zip_eq_some.mpr ⟨hindex.2.1, hindex.2.2.1⟩⟩
  exact (List.forall₂_iff_zip.mp haccounts).2 hfound reference
    (List.mem_mergeSort.mp hreference)

/-- The statements of an analysis define what the first walk has found for
them. -/
theorem map_defines_of_ofProgram
    (hanalysis : ofProgram path source program = .ok analysis) :
    ∃ kinds,
      Interface.ofStatements source.toList program.statements =
        .ok (kinds, analysis.interface) ∧
      analysis.statements.map (·.defines) =
        (declareAll (program.statements.zip kinds)).2 := by
  obtain ⟨kinds, usages, hkinds, htree, huse, hstatements, _⟩ :=
    ofProgram_eq_ok hanalysis
  refine ⟨kinds, hkinds, ?_⟩
  have hordered : analysis.tree.IsOrdered :=
    htree ▸ Declarations.isOrdered_declareAll _
  have husages := (useAll_accounts hordered htree huse).length_eq
  have hlength : (declareAll (program.statements.zip kinds)).2.length =
      program.statements.length := by
    rw [declareAll_eq, length_declareFrom, List.length_zip,
      Interface.length_ofStatements hkinds, Nat.min_self]
  have hlayouts := Layout.length_ofStatements source.toList
    (program.statements.map (·.span)) program.comments
  rw [List.length_map] at hlayouts
  rw [hstatements, List.map_map]
  generalize Layout.ofStatements source.toList
    (program.statements.map (·.span)) program.comments = layouts at hlayouts ⊢
  calc
    _ = (((program.statements.zip kinds).zip
          ((declareAll (program.statements.zip kinds)).2.zip
            (usages.zip layouts))).map Prod.snd).map Prod.fst := by
        rw [List.map_map]
        rfl
    _ = ((declareAll (program.statements.zip kinds)).2.zip
          (usages.zip layouts)).map Prod.fst := by
        rw [List.map_snd_zip]
        simp [hlength, ← husages, hlayouts, Interface.length_ofStatements hkinds]
    _ = (declareAll (program.statements.zip kinds)).2 := by
        rw [List.map_fst_zip]
        simp [hlength, ← husages, hlayouts]

/-- Every export that is no import has a statement that declares what stands
behind it. -/
theorem exists_definer_of_ofProgram
    (hanalysis : ofProgram path source program = .ok analysis)
    {exported : Export}
    (hexported : exported ∈ analysis.interface.exports.entries.map (·.2)) :
    analysis.interface.imports.contains exported.localName = true ∨
      ∃ statement ∈ analysis.statements,
        exported.localName ∈ statement.defines := by
  obtain ⟨kinds, hkinds, hdefines⟩ := map_defines_of_ofProgram hanalysis
  have hdeclares : ∀ defines ∈
      (declareAll (program.statements.zip kinds)).2, ∀ name ∈ defines,
      ∃ statement ∈ analysis.statements, name ∈ statement.defines := by
    rw [← hdefines]
    intro defines hmem name hname
    obtain ⟨statement, hstatement, rfl⟩ := List.mem_map.mp hmem
    exact ⟨statement, hstatement, hname⟩
  have hdefined := isDefined_of_ofProgram hkinds hanalysis exported hexported
  rw [isDefined] at hdefined
  split at hdefined
  · rename_i hslot
    obtain ⟨defines, hmem, hdefault⟩ := List.any_eq_true.mp hdefined
    exact .inr (hdeclares defines hmem _
      (hslot ▸ List.contains_iff_mem.mp hdefault))
  · apply (Bool.or_eq_true_iff.mp hdefined).imp_right
    intro htop
    rw [declareAll_eq] at htop hdeclares
    have hroot : ScopeTree.root < ScopeTree.initial.size := Nat.zero_lt_one
    rcases mem_defines_of_contains hroot htop with
      hinitial | ⟨defines, hmem, hdefined⟩
    · cases hinitial
    · exact hdeclares defines hmem _ hdefined

end Analysis

namespace Module

variable {loader : Loader} {path : Path} {module : Module}
  (hfaithful : loader.IsFaithful) (hmodule : loader.module path = .ok module)
include hfaithful hmodule

/-- A statement reads or declares every name that it has a reference of. -/
theorem reads_or_declares {statement : Statement}
    (hstatement : statement ∈ module.statements) {reference : Reference}
    (hreference : reference ∈ statement.references) :
    reference.name ∈ statement.dependsOn ∨
      reference.name ∈ statement.defines := by
  obtain ⟨program, _, hanalysis⟩ := hfaithful.ofProgram_eq_ok hmodule
  exact Analysis.reads_or_defines_of_ofProgram hanalysis hstatement hreference

/-- Behind an export that is no import there is a definition. -/
theorem exists_definition_of_export {name : String} {exported : Export}
    (hexported : module.exports.get? name = some exported)
    (hlocal : module.imports.contains exported.localName = false) :
    ∃ id, module.definitions.get? exported.localName = some id := by
  obtain ⟨program, _, hanalysis⟩ := hfaithful.ofProgram_eq_ok hmodule
  have hmem : exported ∈ module.interface.exports.entries.map (·.2) :=
    List.mem_map.mpr ⟨_, NameMap.mem_of_lookup_eq_some hexported, rfl⟩
  rcases Analysis.exists_definer_of_ofProgram hanalysis hmem with
    himport | ⟨statement, hstatement, hdefines⟩
  · exact absurd (himport.symm.trans hlocal) (by simp)
  · exact (hfaithful.hasTables hmodule).isSome_get?_definitions hstatement
      hdefines

end Module

/-! ### What statements define -/

variable {naming : Naming}

/-- A name may stand somewhere. -/
def Naming.Knows (naming : Naming) (name : String) : Prop :=
  ∃ span, naming.Allows span name

namespace Node

variable {Allows : Span → String → Prop}

theorem allows_boundNames {node : Node} (hnames : node.Names Allows) :
    ∀ bound ∈ node.boundNames, Allows bound.span bound.name := by
  induction node using Node.parts_induction with
  | hnode node ih =>
    intro bound hbound
    have hparts : ∀ part ∈ node.parts,
        bound ∈ (if part.1 = .expression then [] else part.2.boundNames) →
        Allows bound.span bound.name := by
      intro part hpart hmem
      split at hmem
      · exact absurd hmem List.not_mem_nil
      · exact ih part hpart (hnames.parts part hpart) bound hmem
    rw [boundNames] at hbound
    obtain ⟨span, shape⟩ := node
    split at hbound
    · rename_i name hname
      obtain rfl : shape = .identPattern name := hname
      obtain rfl := List.mem_singleton.mp hbound
      exact hnames.name rfl
    all_goals first
      | exact absurd hbound List.not_mem_nil
      | obtain ⟨part, _, hmem⟩ := List.mem_flatMap.mp hbound
        exact hparts part.1 part.2 hmem

theorem allows_declaredName {node : Node} (hnames : node.Names Allows)
    {declared : Occurrence} (hdeclared : node.declaredName? = some declared) :
    Allows declared.span declared.name := by
  obtain ⟨span, shape⟩ := node
  rw [declaredName?] at hdeclared
  split at hdeclared
  · rename_i name hname
    obtain rfl : shape = .declaredName name := hname
    cases hdeclared
    exact hnames.name rfl
  · cases hdeclared

/-- A name may stand where a construct declares it. -/
theorem allows_declaringPlaces {node : Node} (hnames : node.Names Allows) :
    ∀ place ∈ node.declaringPlaces, Allows place.1.span place.1.name := by
  intro place hplace
  rcases declaringPlaces_cases hplace with hname | ⟨part, hpart, hbound⟩
  · obtain ⟨part, hpart, hdeclared⟩ := exists_part_of_nameOfDeclaration? hname
    exact allows_declaredName (hnames.parts part hpart) hdeclared
  · exact allows_boundNames (hnames.parts part hpart) place.1 hbound

/-- A name that is declared in a construct stands there. -/
theorem knows_declarations {node : Node} (hfits : naming.Fits node) :
    ∀ declared ∈ node.declarations, naming.Knows declared.1 := by
  intro declared hdeclared
  rw [← map_declaringPlaces] at hdeclared
  obtain ⟨place, hplace, rfl⟩ := List.mem_map.mp hdeclared
  exact ⟨place.1.span, allows_declaringPlaces hfits.names place hplace⟩

end Node

namespace Declarations

theorem defines_enter (scope : Nat) (state : Declarations)
    (new : Option NewScope) :
    (state.enter scope new).2.defines = state.defines := by
  cases new <;> rfl

theorem mem_defines_declare {scope : Nat} {state : Declarations}
    {declared : String × Bool} {name : String}
    (hname : name ∈ (declare scope state declared).defines) :
    name ∈ state.defines ∨ name = declared.1 := by
  rw [declare] at hname
  dsimp only at hname
  split at hname
  · exact mem_pushNew.mp hname
  · exact .inl hname

/-- The names that a walk through a node defines stand in the node. -/
theorem knows_visit {node : Node} (hfits : naming.Fits node)
    (ownName : Option String) (scope : Nat) {state : Declarations}
    (hstate : ∀ name ∈ state.defines, naming.Knows name) :
    ∀ name ∈ (visit ownName scope node state).defines, naming.Knows name := by
  apply visit_induction
    (fun later => ∀ name ∈ later.defines, naming.Knows name) naming.Fits
    (fun _ hfits => hfits.parts) _ _ hfits ownName scope hstate
  · intro scope later new hlater
    rw [defines_enter]
    exact hlater
  · intro node hfits declared hmem scope later hlater name hname
    rcases mem_defines_declare hname with hold | rfl
    · exact hlater name hold
    · exact Node.knows_declarations hfits declared hmem

end Declarations

namespace Analysis

theorem knows_declareOne {tree : ScopeTree} {statement : Node}
    {kind : StatementKind} (hfits : naming.Fits statement) {name : String}
    (hname : name ∈ (declareOne tree (statement, kind)).2) :
    name = defaultSlot ∨ naming.Knows name := by
  have hstart : ∀ name ∈ (Declarations.mk tree []).defines, naming.Knows name :=
    fun _ hmem => absurd hmem List.not_mem_nil
  have hvisit := Declarations.knows_visit hfits none ScopeTree.root hstart
  rw [declareOne] at hname
  split at hname
  · exact absurd hname List.not_mem_nil
  · dsimp only at hname
    split at hname
    · exact (mem_pushNew.mp hname).symm.imp_right (hvisit name)
    · exact .inr (hvisit name hname)

theorem knows_declareFrom {tree : ScopeTree}
    {statements : List (Node × StatementKind)}
    (hfits : ∀ statement ∈ statements, naming.Fits statement.1) :
    ∀ names ∈ (declareFrom tree statements).2, ∀ name ∈ names,
      name = defaultSlot ∨ naming.Knows name := by
  induction statements generalizing tree with
  | nil => exact fun _ hnames => absurd hnames List.not_mem_nil
  | cons statement others ih =>
      obtain ⟨hfirst, hothers⟩ := List.forall_mem_cons.mp hfits
      refine List.forall_mem_cons.mpr ⟨?_, ih hothers⟩
      exact fun name hname => knows_declareOne hfirst hname

/-- What a statement of an analysed module defines stands in the program or is the
slot of a default export. -/
theorem knows_defines {path : Path} {source : String} {program : Program}
    {analysis : Analysis}
    (hfits : ∀ statement ∈ program.statements, naming.Fits statement)
    (hanalysis : ofProgram path source program = .ok analysis)
    {statement : Statement} (hstatement : statement ∈ analysis.statements)
    {name : String} (hname : name ∈ statement.defines) :
    name = defaultSlot ∨ naming.Knows name := by
  obtain ⟨kinds, _, hdefines⟩ := map_defines_of_ofProgram hanalysis
  have hmem : statement.defines ∈
      (declareAll (program.statements.zip kinds)).2 :=
    hdefines ▸ List.mem_map_of_mem hstatement
  rw [declareAll_eq] at hmem
  have hall : ∀ found ∈ program.statements.zip kinds,
      naming.Fits found.1 := fun found hfound =>
    hfits found.1 (List.of_mem_zip hfound).1
  exact knows_declareFrom hall statement.defines hmem name hname

end Analysis

/-- A word that is consumed has a text, which starts as one. -/
theorem TokenStream.Lexes.exists_head_of_consumes {base : Nat}
    {stream : TokenStream} (h : stream.Lexes base) {token : Token}
    (htoken : TokenStream.Consumes base stream token)
    (hword : token.kind.isWord = true) :
    ∃ c ∈ token.text.toList.head?, CharClass.opensWord c = true := by
  obtain ⟨index, next, hbase, _, hnext, rfl⟩ := htoken
  rw [h.lexed index next hbase hnext] at hword ⊢
  exact exists_head_of_isWord hword

/-- Names that stand where words are consumed start as words. -/
theorem Naming.exists_head_of_knows {base : Nat} {stream : TokenStream}
    (h : stream.Lexes base) {name : String}
    (hknows : (ofConsumed base stream).Knows name) :
    ∃ c ∈ name.toList.head?, CharClass.opensWord c = true := by
  obtain ⟨span, ⟨token, htoken, hword, _, rfl⟩ | ⟨_, rfl⟩⟩ := hknows
  · exact h.exists_head_of_consumes htoken (TokenKind.isWord_of_mayName hword)
  · exact ⟨'u', rfl, rfl⟩

/-- No statement of a module defines the pseudo name of the object that holds
all exports. -/
theorem Module.namespaceSlot_notMem_defines {loader : Loader} {path : Path}
    {module : Module} (hfaithful : loader.IsFaithful)
    (hmodule : loader.module path = .ok module) {statement : Statement}
    (hstatement : statement ∈ module.statements) :
    namespaceSlot ∉ statement.defines := by
  intro hdefines
  obtain ⟨program, hparse, hanalysis⟩ := hfaithful.ofProgram_eq_ok hmodule
  obtain ⟨last, hlast, hfits⟩ := Program.fits_of_parse hparse
  rcases Analysis.knows_defines hfits hanalysis hstatement hdefines with
    hdefault | hknows
  · exact absurd hdefault (by decide)
  · obtain ⟨c, hc, hopens⟩ := Naming.exists_head_of_knows hlast hknows
    obtain rfl : '*' = c := Option.some.inj hc
    exact absurd hopens (by decide)

end Bundler
