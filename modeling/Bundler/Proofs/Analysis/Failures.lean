import Bundler.Proofs.Analysis.Clauses
import Bundler.Proofs.Analysis.Plain
import Bundler.Proofs.Analysis.Writes

/-!
# Why an analysis fails

Three checks are made of a module, one after the other: that no two imports bind
one name, that something stands behind each export, and that no import is written.
The first reads the import statements as they come, the second what has been
declared after the first walk, and the third is a part of the second walk.
-/

namespace Bundler

namespace Occurrence

/-- The first of some names that is among those before it, or among given ones. -/
def firstRepeated (earlier : List String) : List Occurrence → Option Occurrence
  | [] => none
  | bound :: others =>
      if bound.name ∈ earlier then some bound
      else firstRepeated (earlier ++ [bound.name]) others

variable {earlier : List String} {names others : List Occurrence}
  {bound : Occurrence}

theorem firstRepeated_append :
    firstRepeated earlier (names ++ others) =
      (firstRepeated earlier names).or
        (firstRepeated (earlier ++ names.map (·.name)) others) := by
  induction names generalizing earlier with
  | nil => simp [firstRepeated]
  | cons found names ih =>
      rw [List.cons_append, firstRepeated, firstRepeated]
      split
      · rfl
      · rw [ih, List.append_assoc]
        rfl

theorem nodup_append_singleton {name : String} (hearlier : earlier.Nodup)
    (hnew : name ∉ earlier) : (earlier ++ [name]).Nodup := by
  have hnodup : (pushNew earlier name).Nodup := nodup_pushNew hearlier
  rwa [pushNew, if_neg hnew] at hnodup

/-- No name is repeated just if all are different. -/
theorem firstRepeated_eq_none_iff (hearlier : earlier.Nodup) :
    firstRepeated earlier names = none ↔
      (earlier ++ names.map (·.name)).Nodup := by
  induction names generalizing earlier with
  | nil => simpa [firstRepeated] using hearlier
  | cons found names ih =>
      rw [firstRepeated, List.map_cons]
      split
      · rename_i hmem
        refine iff_of_false (Option.some_ne_none _) fun hnodup => ?_
        exact (List.nodup_append.mp hnodup).2.2 _ hmem _
          List.mem_cons_self rfl
      · rename_i hnew
        rw [ih (nodup_append_singleton hearlier hnew), List.append_assoc,
          List.singleton_append]

theorem firstRepeated_eq_some_iff (hearlier : earlier.Nodup) :
    firstRepeated earlier names = some bound ↔
      ∃ front later, names = front ++ bound :: later ∧
        (earlier ++ front.map (·.name)).Nodup ∧
        bound.name ∈ earlier ++ front.map (·.name) := by
  induction names generalizing earlier with
  | nil => simp [firstRepeated]
  | cons found names ih =>
      rw [firstRepeated]
      split
      · rename_i hmem
        constructor
        · rintro ⟨⟩
          exact ⟨[], names, rfl, by simpa using hearlier, by simpa using hmem⟩
        · rintro ⟨front, later, hsplit, hnodup, _⟩
          cases front with
          | nil => rw [(List.cons.inj hsplit).1]
          | cons first front =>
              obtain ⟨rfl, -⟩ := List.cons.inj hsplit
              exact absurd rfl ((List.nodup_append.mp hnodup).2.2 _ hmem _
                List.mem_cons_self)
      · rename_i hnew
        rw [ih (nodup_append_singleton hearlier hnew)]
        simp only [List.append_assoc, List.singleton_append]
        constructor
        · rintro ⟨front, later, rfl, hnodup, hmem⟩
          exact ⟨found :: front, later, rfl, hnodup, hmem⟩
        · rintro ⟨front, later, hsplit, hnodup, hmem⟩
          cases front with
          | nil =>
              obtain ⟨rfl, -⟩ := List.cons.inj hsplit
              exact absurd (by simpa using hmem) hnew
          | cons first front =>
              obtain ⟨rfl, hrest⟩ := List.cons.inj hsplit
              exact ⟨front, later, hrest, hnodup, hmem⟩

end Occurrence

namespace Interface

variable {interface first second : Interface} {earlier : List String}
  {bound others : List Occurrence} {σ τ : Type} {view : σ → Interface}
  {next : τ → Interface}

/-- The imports of an interface bind some names.  What is passed on binds none. -/
def Binds (interface : Interface) (names : List String) : Prop :=
  ∀ name, IsBindable name →
    (interface.imports.contains name = true ↔ name ∈ names)

/-- What comes of binding names to imports, after some others: all are bound, or
the first that is bound already is refused. -/
inductive BindsInTurn (view : σ → Interface) (earlier : List String)
    (bound : List Occurrence) : Except Occurrence σ → Prop
  | all {after : σ} : Occurrence.firstRepeated earlier bound = none →
      (view after).Binds (earlier ++ bound.map (·.name)) →
      BindsInTurn view earlier bound (.ok after)
  | upTo {repeated : Occurrence} :
      Occurrence.firstRepeated earlier bound = some repeated →
      BindsInTurn view earlier bound (.error repeated)

namespace BindsInTurn

theorem none {after : σ} (hbinds : (view after).Binds earlier) :
    BindsInTurn view earlier [] (.ok after) :=
  .all rfl (by simpa using hbinds)

theorem bind {outcome : Except Occurrence σ} {step : σ → Except Occurrence τ}
    (hfirst : BindsInTurn view earlier bound outcome)
    (hnext : ∀ after, outcome = .ok after →
      (view after).Binds (earlier ++ bound.map (·.name)) →
      BindsInTurn next (earlier ++ bound.map (·.name)) others (step after)) :
    BindsInTurn next earlier (bound ++ others) (outcome >>= step) := by
  cases hfirst with
  | upTo hrepeated =>
      exact .upTo (by rw [Occurrence.firstRepeated_append, hrepeated]; rfl)
  | @all after hnone hbinds =>
      have hsplit : Occurrence.firstRepeated earlier (bound ++ others) =
          Occurrence.firstRepeated (earlier ++ bound.map (·.name)) others := by
        rw [Occurrence.firstRepeated_append, hnone, Option.none_or]
      have hrest := hnext after rfl hbinds
      change BindsInTurn next earlier (bound ++ others) (step after)
      generalize step after = outcome at hrest ⊢
      cases hrest with
      | upTo hrepeated => exact .upTo (hsplit.trans hrepeated)
      | all hothers hafter =>
          refine .all (hsplit.trans hothers) ?_
          rwa [List.map_append, ← List.append_assoc]

theorem foldlM {α : Type} {step : σ → α → Except Occurrence σ}
    {values : List α} {added : α → List Occurrence} {start : σ}
    (hstart : (view start).Binds earlier)
    (hstep : ∀ value ∈ values, ∀ before earlier,
      (view before).Binds earlier →
      BindsInTurn view earlier (added value) (step before value)) :
    BindsInTurn view earlier (values.flatMap added)
      (values.foldlM step start) := by
  induction values generalizing start earlier with
  | nil => exact .none hstart
  | cons value values ih =>
      obtain ⟨hfirst, hothers⟩ := List.forall_mem_cons.mp hstep
      rw [List.flatMap_cons, List.foldlM_cons]
      exact (hfirst start earlier hstart).bind fun after _ hafter =>
        ih hafter hothers

end BindsInTurn

theorem bindsInTurn_addImport {source : String} {name : ImportedName}
    {bound : Occurrence} (hbindable : IsBindable bound.name)
    (hbinds : interface.Binds earlier) :
    BindsInTurn id earlier [bound]
      (interface.addImport source name bound) := by
  rw [addImport]
  split
  · rename_i hcontains
    refine .upTo ?_
    rw [Occurrence.firstRepeated, if_pos ((hbinds _ hbindable).mp hcontains)]
  · rename_i hnew
    refine .all ?_ fun asked hasked => ?_
    · rw [Occurrence.firstRepeated,
        if_neg fun hmem => hnew ((hbinds _ hbindable).mpr hmem)]
      rfl
    · have hold := hbinds asked hasked
      rw [NameMap.contains] at hold
      simp only [id, NameMap.contains, NameMap.get?_insert, List.map_cons,
        List.map_nil, List.mem_append, List.mem_singleton]
      split
      · rename_i hsame
        exact iff_of_true rfl (.inr hsame)
      · rename_i hother
        rw [hold, or_iff_left hother]

theorem bindsInTurn_addImports {source : String} {name : ImportedName}
    {pattern : Node}
    (hbindable : ∀ bound ∈ pattern.boundNames, IsBindable bound.name)
    (hbinds : interface.Binds earlier) :
    BindsInTurn id earlier pattern.boundNames
      (interface.addImports source name pattern) := by
  have hall : BindsInTurn id earlier (pattern.boundNames.flatMap ([·]))
      (interface.addImports source name pattern) :=
    .foldlM hbinds fun bound hbound _ _ h =>
      bindsInTurn_addImport (hbindable bound hbound) h
  rwa [List.flatMap_singleton'] at hall

theorem bindsInTurn_addClause {source : String}
    {names : Option (ImportNames Node)}
    (hbindable : ∀ bound ∈ Node.clauseNames names, IsBindable bound.name)
    (hbinds : interface.Binds earlier) :
    BindsInTurn id earlier (Node.clauseNames names)
      (interface.addClause names source) := by
  cases names with
  | none => exact .none hbinds
  | some names =>
      cases names with
      | all asName => exact bindsInTurn_addImports hbindable hbinds
      | items items =>
          refine .foldlM hbinds fun item hitem before earlier hbefore => ?_
          have hnames := fun bound hbound =>
            hbindable bound (List.mem_flatMap.mpr ⟨item, hitem, hbound⟩)
          rw [addImportItem]
          cases hshape : item.shape with
          | importItem imported asName =>
              rw [hshape] at hnames
              exact bindsInTurn_addImports hnames hbefore
          | _ => exact .none hbefore

theorem bindsInTurn_addImportStatement {span : Span} {source : String}
    {defaultName : Option Node} {names : Option (ImportNames Node)}
    (hbindable : ∀ bound ∈
      (Node.mk span (.importFrom defaultName names source)).importedNames,
      IsBindable bound.name)
    (hbinds : interface.Binds earlier) :
    BindsInTurn id earlier
      (Node.mk span (.importFrom defaultName names source)).importedNames
      (interface.addImportStatement defaultName names source) := by
  obtain ⟨hdefault, hclause⟩ := List.forall_mem_append.mp hbindable
  have hsource : (interface.addSource source).Binds earlier := hbinds
  cases defaultName with
  | none => exact bindsInTurn_addClause hclause hsource
  | some pattern =>
      rw [Option.toList_some, List.flatMap_singleton] at hdefault
      have hnames : (Node.mk span
          (.importFrom (some pattern) names source)).importedNames =
            pattern.boundNames ++ Node.clauseNames names := by
        simp [Node.importedNames, Node.shape]
      rw [hnames]
      exact (bindsInTurn_addImports hdefault hsource).bind fun _ _ hafter =>
        bindsInTurn_addClause hclause hafter

/-- What is passed on to others binds no name. -/
theorem Binds.passOn (hbinds : interface.Binds earlier) (source : String)
    (name : ImportedName) (exported : String) (span : Span) :
    (interface.passOn source name exported span).Binds earlier := by
  intro asked hasked
  have hother : asked ≠ passedOnKey source name := by
    rintro rfl
    exact not_isBindable_passedOnKey source name hasked
  rw [← hbinds asked hasked]
  simp only [Interface.passOn, addExport, NameMap.contains,
    NameMap.get?_insert, if_neg hother]

theorem Binds.addExportItems (hbinds : interface.Binds earlier)
    (items : List Node) (source : Option String) :
    (interface.addExportItems items source).Binds earlier := by
  have hitem : ∀ {interface : Interface} (item : Node),
      interface.Binds earlier →
      (interface.addExportItem source item).Binds earlier := by
    rintro interface ⟨span, shape⟩ h
    cases shape with
    | exportItem exported asName =>
        cases source with
        | none => exact h
        | some source => exact h.passOn _ _ _ _
    | _ => cases source <;> exact h
  refine List.foldlRecOn items _ (motive := (Interface.Binds · earlier)) ?_
    fun before hbefore item _ => hitem item hbefore
  cases source <;> exact hbinds

theorem imports_addDeclaration (isDefault : Bool) (declaration : Node) :
    (interface.addDeclaration isDefault declaration).imports =
      interface.imports := by
  rw [addDeclaration]
  split
  · split <;> rfl
  · split <;> rfl
  · exact List.foldlRecOn _ _
      (motive := fun later : Interface => later.imports = interface.imports) rfl
      fun _ hlater _ _ => hlater
  · rfl

/-- A statement binds the names that it imports. -/
theorem bindsInTurn_addStatement (text : List Char) {statement : Node}
    (hbindable : ∀ bound ∈ statement.importedNames, IsBindable bound.name)
    (hbinds : interface.Binds earlier) :
    BindsInTurn (·.2) earlier statement.importedNames
      (interface.addStatement text statement) := by
  obtain ⟨span, shape⟩ := statement
  cases shape with
  | importFrom defaultName names source =>
      have hstatement := bindsInTurn_addImportStatement hbindable hbinds
      rw [← List.append_nil (Node.importedNames _)]
      exact hstatement.bind fun after _ hafter => .none hafter
  | exportItems items source =>
      exact .none (hbinds.addExportItems items source)
  | exportAll asName source =>
      cases asName with
      | none => exact .none hbinds
      | some asName =>
          have hsource : (interface.addSource source).Binds earlier := hbinds
          exact .none (hsource.passOn _ _ _ _)
  | exportDeclaration isDefault declaration =>
      have hdeclared :
          (interface.addDeclaration isDefault declaration).Binds earlier := by
        intro name hname
        rw [imports_addDeclaration]
        exact hbinds name hname
      exact .none hdeclared
  | _ => exact .none hbinds

/-- The interface of a module binds all names that the module imports, if these
differ. -/
theorem bindsInTurn_ofStatements (text : List Char) {statements : List Node}
    (hbindable : ∀ statement ∈ statements, ∀ bound ∈ statement.importedNames,
      IsBindable bound.name) :
    BindsInTurn (·.2) [] (statements.flatMap (·.importedNames))
      (ofStatements text statements) := by
  have hempty : empty.Binds [] := fun name _ =>
    iff_of_false Bool.false_ne_true List.not_mem_nil
  rw [← List.append_nil (statements.flatMap _), ofStatements]
  refine .bind (show BindsInTurn
    (fun state : List StatementKind × Interface => state.2) _ _ _ from
      .foldlM hempty ?_) fun after _ hafter => .none hafter
  rintro statement hmem ⟨kinds, before⟩ earlier hbefore
  rw [← List.append_nil statement.importedNames]
  exact (bindsInTurn_addStatement text (hbindable statement hmem) hbefore).bind
    fun after _ hafter => .none hafter

end Interface

/-! ### What the checks ask for -/

namespace Node

def isImport (node : Node) : Bool :=
  match node.shape with
  | .importFrom _ _ _ => true
  | _ => false

def isDefaultValue (node : Node) : Bool :=
  match node.shape with
  | .exportDefault _ => true
  | _ => false

end Node

namespace Program

variable (program : Program)

/-- The names that a program imports, in the order of their specifiers. -/
def importedNames : List Occurrence :=
  program.statements.flatMap (·.importedNames)

/-- The exports of a program in their order.  A name that is exported again keeps
its place, and stands for what the last clause says. -/
def exports : List Export :=
  (NameMap.empty.insertAll (program.exportClauses.map (·.entry))).entries.map
    (·.2)

/-- The sites of a program.  An import statement has none. -/
def sites : List Site :=
  program.statements.flatMap fun statement =>
    if statement.isImport then [] else statement.sites none false []

/-- Something stands behind a local name: an import that binds it, or one that is
only passed on and has it as its key, a declaration for the top level, or the
value of a default export. -/
inductive Resolves : String → Prop
  | imported {bound : Occurrence} :
      bound ∈ program.importedNames → Resolves bound.name
  | passedOn {clause : ExportClause} {source : String} {name : ImportedName} :
      clause ∈ program.exportClauses → clause.meaning = .passedOn source name →
      Resolves (Interface.passedOnKey source name)
  | declared {site : Site} {place : Occurrence} :
      site ∈ program.sites → site.Declares place → Resolves place.name
  | defaultValue {statement : Node} :
      statement ∈ program.statements → statement.isDefaultValue = true →
      Resolves defaultSlot

/-- An import is written at a site, and no function or block around binds its
name. -/
structure WritesImport (site : Site) (written : Occurrence) : Prop where
  writes : site.node.Writes written
  unbound : ∀ frame ∈ site.frames, written.name ∉ frame.names
  imported : ∃ bound ∈ program.importedNames, bound.name = written.name

/-- No two specifiers bind the same name. -/
def ImportsOnce : Prop := (program.importedNames.map (·.name)).Nodup

def ExportsResolve : Prop :=
  ∀ exported ∈ program.exports, program.Resolves exported.localName

def KeepsImports : Prop :=
  ∀ site ∈ program.sites, ∀ written, ¬ program.WritesImport site written

/-- The imports that are written, in the order of the second walk. -/
def importWrites : List Occurrence :=
  program.sites.flatMap (·.importWrites (program.importedNames.map (·.name)))

theorem mem_importWrites_iff {written : Occurrence} :
    written ∈ program.importWrites ↔
      ∃ site ∈ program.sites, program.WritesImport site written := by
  simp only [importWrites, List.mem_flatMap, Site.mem_importWrites_iff,
    List.mem_map]
  refine exists_congr fun site => and_congr_right fun _ => ?_
  exact ⟨fun ⟨hwrites, hunbound, himported⟩ => ⟨hwrites, hunbound, himported⟩,
    fun ⟨hwrites, hunbound, himported⟩ => ⟨hwrites, hunbound, himported⟩⟩

end Program

namespace Program

/-- What is wrong with a program: the first of three checks that fails, and the
first place where it does. -/
inductive Fails (program : Program) (path : Path) (source : String) :
    BundleError → Prop
  | duplicateImport {earlier later : List Occurrence} {bound : Occurrence} :
      program.importedNames = earlier ++ bound :: later →
      (earlier.map (·.name)).Nodup → bound.name ∈ earlier.map (·.name) →
      Fails program path source (.duplicateImport path bound.name
        (.ofOffset source.toList bound.span.start))
  | unresolvedExport {earlier later : List Export} {missing : Export} :
      program.ImportsOnce → program.exports = earlier ++ missing :: later →
      (∀ exported ∈ earlier, program.Resolves exported.localName) →
      ¬ program.Resolves missing.localName →
      Fails program path source (.unresolvedExport path missing.localName
        (.ofOffset source.toList missing.span.start))
  | illegalReassignment {written : Occurrence} {later : List Occurrence} :
      program.ImportsOnce → program.ExportsResolve →
      program.importWrites = written :: later →
      Fails program path source (.illegalReassignment path written.name
        (.ofOffset source.toList written.span.start))

end Program

namespace Interface

variable {text : List Char} {statements : List Node}
  {kinds : List StatementKind}

/-- Of what kind a statement is can be seen from it. -/
theorem IsKind.agrees {statement : Node} {kind : StatementKind}
    (hkind : IsKind text statement kind) :
    kind.isImport = statement.isImport ∧
      kind.isDefaultValue = statement.isDefaultValue := by
  obtain ⟨before, after, hadd⟩ := hkind
  obtain ⟨span, shape⟩ := statement
  cases shape with
  | importFrom defaultName names source =>
      obtain ⟨_, _, hadd⟩ := Except.bind_eq_ok_iff.mp hadd
      obtain ⟨rfl, _⟩ := Prod.mk.inj (Except.ok.inj hadd)
      exact ⟨rfl, rfl⟩
  | _ =>
      obtain ⟨rfl, _⟩ := Prod.mk.inj (Except.ok.inj hadd)
      exact ⟨rfl, rfl⟩

theorem flatMap_ofStatement
    (hkinds : List.Forall₂ (IsKind text) statements kinds) :
    (statements.zip kinds).flatMap Site.ofStatement =
      statements.flatMap fun statement =>
        if statement.isImport then [] else statement.sites none false [] := by
  induction hkinds with
  | nil => rfl
  | cons hkind _ ih =>
      rw [List.zip_cons_cons, List.flatMap_cons, List.flatMap_cons, ih,
        Site.ofStatement, hkind.agrees.1]

end Interface

section Pairs

variable {α β : Type} {values : List α} {others : List β}

theorem exists_mem_zip_left (hlength : values.length = others.length)
    {value : α} (hvalue : value ∈ values) :
    ∃ other, (value, other) ∈ values.zip others := by
  rw [← List.map_fst_zip (Nat.le_of_eq hlength)] at hvalue
  obtain ⟨⟨value, other⟩, hpair, rfl⟩ := List.mem_map.mp hvalue
  exact ⟨other, hpair⟩

theorem exists_mem_zip_right (hlength : values.length = others.length)
    {other : β} (hother : other ∈ others) :
    ∃ value, (value, other) ∈ values.zip others := by
  rw [← List.map_snd_zip (Nat.le_of_eq hlength.symm)] at hother
  obtain ⟨⟨value, other⟩, hpair, rfl⟩ := List.mem_map.mp hother
  exact ⟨value, hpair⟩

end Pairs

namespace Analysis

variable {tree : ScopeTree} {statements : List (Node × StatementKind)}

/-- The first walk binds at the top level what is declared for it. -/
theorem contains_declareFrom_iff (hroot : ScopeTree.root < tree.size)
    {name : String} :
    (declareFrom tree statements).1.contains ScopeTree.root name = true ↔
      tree.contains ScopeTree.root name = true ∨
        ∃ site ∈ statements.flatMap Site.ofStatement, ∃ place,
          site.Declares place ∧ place.name = name := by
  induction statements generalizing tree with
  | nil => simp [declareFrom]
  | cons statement others ih =>
      have hnext :=
        Nat.lt_of_lt_of_le hroot (size_le_declareOne hroot statement)
      obtain ⟨statement, kind⟩ := statement
      have hone : (declareOne tree (statement, kind)).1.contains
          ScopeTree.root name = true ↔
          tree.contains ScopeTree.root name = true ∨
            ∃ site ∈ Site.ofStatement (statement, kind), ∃ place,
              site.Declares place ∧ place.name = name := by
        cases himport : kind.isImport with
        | true => simp [declareOne, Site.ofStatement, himport]
        | false =>
            simp only [declareOne, Site.ofStatement, himport,
              Bool.false_eq_true, if_false]
            exact (Declarations.Records.contains ScopeTree.root
              name).visitStatement_iff hroot statement
      rw [declareFrom, ih hnext, hone, or_assoc]
      simp only [List.flatMap_cons, List.mem_append, or_and_right, exists_or]

/-- The key of what is passed on is found if something is passed on under it. -/
theorem isSome_lastPassedOn_iff {clauses : List ExportClause} {key : String} :
    (lastPassedOn clauses key).isSome = true ↔
      ∃ clause ∈ clauses, ∃ source name,
        clause.meaning = .passedOn source name ∧
          Interface.passedOnKey source name = key := by
  constructor
  · intro hfound
    obtain ⟨imported, himported⟩ := Option.isSome_iff_exists.mp hfound
    obtain ⟨clause, hclause, hentry⟩ := List.mem_filterMap.mp
      (List.mem_reverse.mp (NameMap.mem_of_lookup_eq_some himported))
    refine ⟨clause, hclause, ?_⟩
    rw [ExportClause.passedOn?] at hentry
    split at hentry
    · cases hentry
    · rename_i source name hmeaning
      exact ⟨source, name, hmeaning,
        (Prod.mk.inj (Option.some.inj hentry)).1⟩
  · rintro ⟨clause, hclause, source, name, hmeaning, rfl⟩
    obtain ⟨_, _, _, _, _, _, hlast⟩ := exists_lastPassedOn hclause hmeaning
    rw [ExportClause.localName, hmeaning] at hlast
    rw [hlast]
    rfl

variable {path : Path} {source : String} {program : Program}
  {kinds : List StatementKind} {interface : Interface}

theorem ofProgram_of_repeated {repeated : Occurrence}
    (hstatements : Interface.ofStatements source.toList program.statements =
      .error repeated) :
    ofProgram path source program = .error (.duplicateImport path repeated.name
      (.ofOffset source.toList repeated.span.start)) := by
  rw [ofProgram, hstatements]
  rfl

theorem ofProgram_of_undefined {missing : Export}
    (hkinds : Interface.ofStatements source.toList program.statements =
      .ok (kinds, interface))
    (hmissing : undefinedExport?
      (declareAll (program.statements.zip kinds)).1 interface
      (declareAll (program.statements.zip kinds)).2 = some missing) :
    ofProgram path source program = .error (.unresolvedExport path
      missing.localName (.ofOffset source.toList missing.span.start)) := by
  rw [ofProgram, hkinds]
  simp only [Except.mapError, bind, Except.bind, hmissing]
  rfl

theorem ofProgram_of_written {written : Occurrence}
    (hkinds : Interface.ofStatements source.toList program.statements =
      .ok (kinds, interface))
    (hdefined : undefinedExport?
      (declareAll (program.statements.zip kinds)).1 interface
      (declareAll (program.statements.zip kinds)).2 = none)
    (hwritten : useAll (declareAll (program.statements.zip kinds)).1
      interface.imports.keys ((program.statements.zip kinds).zip
        (declareAll (program.statements.zip kinds)).2) = .error written) :
    ofProgram path source program = .error (.illegalReassignment path
      written.name (.ofOffset source.toList written.span.start)) := by
  rw [ofProgram, hkinds]
  simp only [Except.mapError, bind, Except.bind, hdefined, hwritten]

theorem exists_ofProgram_of_used {usages : List Usage}
    (hkinds : Interface.ofStatements source.toList program.statements =
      .ok (kinds, interface))
    (hdefined : undefinedExport?
      (declareAll (program.statements.zip kinds)).1 interface
      (declareAll (program.statements.zip kinds)).2 = none)
    (hused : useAll (declareAll (program.statements.zip kinds)).1
      interface.imports.keys ((program.statements.zip kinds).zip
        (declareAll (program.statements.zip kinds)).2) = .ok usages) :
    ∃ analysis, ofProgram path source program = .ok analysis := by
  rw [ofProgram, hkinds]
  simp only [Except.mapError, bind, Except.bind, hdefined, hused]
  exact ⟨_, rfl⟩

section Parsed

variable (hparse : Program.parse source = .ok program)
include hparse

theorem not_isPseudoName_importedNames :
    ∀ bound ∈ program.importedNames, ¬ IsPseudoName bound.name := by
  obtain ⟨last, hlast, hfits⟩ := Program.fits_of_parse hparse
  intro bound hbound
  obtain ⟨statement, hstatement, hbound⟩ := List.mem_flatMap.mp hbound
  exact Naming.not_isPseudoName_of_knows hlast ⟨bound.span,
    Node.allows_importedNames (hfits statement hstatement).names bound hbound⟩

theorem not_isPseudoName_declares {site : Site} (hsite : site ∈ program.sites)
    {place : Occurrence} (hdeclares : site.Declares place) :
    ¬ IsPseudoName place.name := by
  obtain ⟨last, hlast, hfits⟩ := Program.fits_of_parse hparse
  obtain ⟨statement, hstatement, hsite⟩ := List.mem_flatMap.mp hsite
  split at hsite
  · exact absurd hsite List.not_mem_nil
  · have hplain : site ∈ Site.ofStatement (statement, .plain) := hsite
    exact Naming.not_isPseudoName_of_knows hlast ⟨place.span,
      allows_of_declares (hfits statement hstatement).names hplain hdeclares⟩

/-- The keys of the imports are the names that are imported and the keys of what
is passed on. -/
theorem contains_imports_iff
    (hkinds : Interface.ofStatements source.toList program.statements =
      .ok (kinds, interface))
    (hbinds : interface.Binds (program.importedNames.map (·.name)))
    {name : String} :
    interface.imports.contains name = true ↔
      (∃ bound ∈ program.importedNames, bound.name = name) ∨
        ∃ clause ∈ program.exportClauses, ∃ source imported,
          clause.meaning = .passedOn source imported ∧
            Interface.passedOnKey source imported = name := by
  have hbindable := isBindable_importedNames hparse
  by_cases hname : Interface.IsBindable name
  · rw [hbinds name hname, List.mem_map, or_iff_left]
    rintro ⟨_, _, origin, imported, _, rfl⟩
    exact Interface.not_isBindable_passedOnKey origin imported hname
  · have hfollows := Interface.follows_ofStatements hbindable hkinds
    rw [NameMap.contains, hfollows.imports name hname,
      show Interface.empty.imports = .empty from rfl, NameMap.get?_empty,
      Option.or_none, or_iff_right]
    · exact isSome_lastPassedOn_iff
    · rintro ⟨bound, hbound, rfl⟩
      obtain ⟨statement, hstatement, hbound⟩ := List.mem_flatMap.mp hbound
      exact hname (hbindable statement hstatement bound hbound)

/-- The slot of the default export is defined by the statement that has its
value, as no declaration can spell it. -/
theorem exists_defaultSlot_iff
    (hkinds : Interface.ofStatements source.toList program.statements =
      .ok (kinds, interface)) :
    (∃ defines ∈ (declareAll (program.statements.zip kinds)).2,
        defaultSlot ∈ defines) ↔
      ∃ statement ∈ program.statements, statement.isDefaultValue = true := by
  have hforall := Interface.forall₂_ofStatements hkinds
  have hroot : ScopeTree.root < ScopeTree.initial.size := Nat.zero_lt_one
  have hdefines := mem_declareFrom_iff hroot (program.statements.zip kinds)
  rw [← declareAll_eq] at hdefines
  have hdeclared : ∀ statement ∈ program.statements.zip kinds,
      ¬ ∃ site ∈ Site.ofStatement statement, ∃ place,
        site.Declares place ∧ place.name = defaultSlot := by
    rintro statement hstatement ⟨site, hsite, place, hdeclares, hname⟩
    have hprogram : site ∈ program.sites := by
      rw [Program.sites, ← Interface.flatMap_ofStatement hforall]
      exact List.mem_flatMap.mpr ⟨statement, hstatement, hsite⟩
    exact not_isPseudoName_declares hparse hprogram hdeclares (.inl hname)
  constructor
  · rintro ⟨defines, hmem, hslot⟩
    obtain ⟨statement, hpair⟩ := exists_mem_zip_right hdefines.length_eq hmem
    have hstatement := (List.of_mem_zip hpair).1
    have hdefault := (((List.forall₂_iff_zip.mp hdefines).2 hpair
      defaultSlot).mp hslot).resolve_right (hdeclared statement hstatement)
    have hkind := (List.forall₂_iff_zip.mp hforall).2 hstatement
    exact ⟨statement.1, (List.of_mem_zip hstatement).1,
      hkind.agrees.2 ▸ hdefault.1⟩
  · rintro ⟨statement, hmem, hdefault⟩
    obtain ⟨kind, hstatement⟩ := exists_mem_zip_left hforall.length_eq hmem
    obtain ⟨defines, hpair⟩ :=
      exists_mem_zip_left hdefines.length_eq hstatement
    have hkind := (List.forall₂_iff_zip.mp hforall).2 hstatement
    exact ⟨defines, (List.of_mem_zip hpair).2,
      ((List.forall₂_iff_zip.mp hdefines).2 hpair defaultSlot).mpr
        (.inl ⟨hkind.agrees.2.trans hdefault, rfl⟩)⟩

/-- Something is found behind an export just if there is something. -/
theorem isDefined_iff
    (hkinds : Interface.ofStatements source.toList program.statements =
      .ok (kinds, interface))
    (hbinds : interface.Binds (program.importedNames.map (·.name)))
    (exported : Export) :
    isDefined (declareAll (program.statements.zip kinds)).1 interface
        (declareAll (program.statements.zip kinds)).2 exported = true ↔
      program.Resolves exported.localName := by
  have hforall := Interface.forall₂_ofStatements hkinds
  have hroot : ScopeTree.root < ScopeTree.initial.size := Nat.zero_lt_one
  rw [isDefined]
  split
  · rename_i hdefault
    rw [hdefault]
    simp only [List.any_eq_true, List.contains_iff_mem]
    rw [exists_defaultSlot_iff hparse hkinds]
    constructor
    · rintro ⟨statement, hstatement, hvalue⟩
      exact .defaultValue hstatement hvalue
    · generalize hname : defaultSlot = name
      intro hresolves
      cases hresolves with
      | imported hbound =>
          exact absurd (.inl hname.symm)
            (not_isPseudoName_importedNames hparse _ hbound)
      | @passedOn _ origin imported =>
          exact absurd (hname ▸ by decide)
            (Interface.not_isBindable_passedOnKey origin imported)
      | declared hsite hdeclares =>
          exact absurd (.inl hname.symm)
            (not_isPseudoName_declares hparse hsite hdeclares)
      | defaultValue hstatement hvalue => exact ⟨_, hstatement, hvalue⟩
  · rename_i hdefault
    rw [Bool.or_eq_true, contains_imports_iff hparse hkinds hbinds,
      declareAll_eq, contains_declareFrom_iff hroot,
      Interface.flatMap_ofStatement hforall, ← Program.sites]
    constructor
    · rintro ((⟨bound, hbound, hname⟩ |
        ⟨clause, hclause, origin, imported, hmeaning, hname⟩) |
        hinitial | ⟨site, hsite, place, hdeclares, hname⟩)
      · exact hname ▸ .imported hbound
      · exact hname ▸ .passedOn hclause hmeaning
      · cases hinitial
      · exact hname ▸ .declared hsite hdeclares
    · generalize exported.localName = name at hdefault ⊢
      intro hresolves
      cases hresolves with
      | imported hbound => exact .inl (.inl ⟨_, hbound, rfl⟩)
      | passedOn hclause hmeaning =>
          exact .inl (.inr ⟨_, hclause, _, _, hmeaning, rfl⟩)
      | declared hsite hdeclares =>
          exact .inr (.inr ⟨_, hsite, _, hdeclares, rfl⟩)
      | defaultValue => exact absurd rfl hdefault

/-- The second walk finds the imports that are written. -/
theorem flatMap_importWrites
    (hkinds : Interface.ofStatements source.toList program.statements =
      .ok (kinds, interface))
    (hbinds : interface.Binds (program.importedNames.map (·.name))) :
    ((program.statements.zip kinds).flatMap fun statement =>
        (Site.ofStatement statement).flatMap
          (·.importWrites interface.imports.keys)) =
      program.importWrites := by
  obtain ⟨last, hlast, hfits⟩ := Program.fits_of_parse hparse
  rw [← List.flatMap_assoc, Interface.flatMap_ofStatement
    (Interface.forall₂_ofStatements hkinds), ← Program.sites]
  refine List.flatMap_congr fun site hsite => List.filter_congr ?_
  intro written hwritten
  obtain ⟨statement, hstatement, hsite⟩ := List.mem_flatMap.mp hsite
  split at hsite
  · exact absurd hsite List.not_mem_nil
  · have hnames := (hfits statement hstatement).names.at_site hsite
    have hbindable := Naming.isBindable_of_knows hlast ⟨written.span,
      (Node.mem_certainWrites_iff.mp hwritten).allowed hnames⟩
    have hsame := hbinds _ hbindable
    rw [NameMap.contains, Option.isSome_iff_exists, ← NameMap.mem_keys_iff]
      at hsame
    simp only [List.contains_eq_mem, hsame]

/-- The interface has the exports of the program in their order. -/
theorem map_exports
    (hkinds : Interface.ofStatements source.toList program.statements =
      .ok (kinds, interface)) :
    interface.exports.entries.map (·.2) = program.exports := by
  rw [(Interface.follows_ofStatements (isBindable_importedNames hparse)
    hkinds).exports]
  rfl

theorem undefinedExport?_eq_some_iff
    (hkinds : Interface.ofStatements source.toList program.statements =
      .ok (kinds, interface))
    (hbinds : interface.Binds (program.importedNames.map (·.name)))
    {missing : Export} :
    undefinedExport? (declareAll (program.statements.zip kinds)).1 interface
        (declareAll (program.statements.zip kinds)).2 = some missing ↔
      ∃ earlier later, program.exports = earlier ++ missing :: later ∧
        (∀ exported ∈ earlier, program.Resolves exported.localName) ∧
        ¬ program.Resolves missing.localName := by
  rw [undefinedExport?, map_exports hparse hkinds,
    List.find?_eq_some_iff_append]
  simp only [Bool.not_eq_true', ← Bool.not_eq_true,
    isDefined_iff hparse hkinds hbinds, Bool.not_not]
  constructor
  · rintro ⟨hmissing, earlier, later, hsplit, hearlier⟩
    exact ⟨earlier, later, hsplit, hearlier, hmissing⟩
  · rintro ⟨earlier, later, hsplit, hearlier, hmissing⟩
    exact ⟨hmissing, earlier, later, hsplit, hearlier⟩

theorem undefinedExport?_eq_none_iff
    (hkinds : Interface.ofStatements source.toList program.statements =
      .ok (kinds, interface))
    (hbinds : interface.Binds (program.importedNames.map (·.name))) :
    undefinedExport? (declareAll (program.statements.zip kinds)).1 interface
        (declareAll (program.statements.zip kinds)).2 = none ↔
      program.ExportsResolve := by
  rw [undefinedExport?, map_exports hparse hkinds, List.find?_eq_none]
  simp only [Bool.not_eq_true', Bool.not_eq_false,
    isDefined_iff hparse hkinds hbinds, Program.ExportsResolve]

/-- If no two specifiers bind the same name, the module has an interface. -/
theorem exists_interface (honce : program.ImportsOnce) :
    ∃ kinds interface,
      Interface.ofStatements source.toList program.statements =
        .ok (kinds, interface) ∧
      interface.Binds (program.importedNames.map (·.name)) := by
  have hturn := Interface.bindsInTurn_ofStatements source.toList
    (isBindable_importedNames hparse)
  have hnone : Occurrence.firstRepeated [] program.importedNames = none :=
    (Occurrence.firstRepeated_eq_none_iff List.nodup_nil).mpr honce
  generalize Interface.ofStatements source.toList program.statements = outcome
    at hturn ⊢
  cases hturn with
  | @all state _ hbinds => exact ⟨state.1, state.2, rfl, hbinds⟩
  | upTo hrepeated => cases hnone.symm.trans hrepeated

/-- What is wrong with a program is what its analysis fails with. -/
theorem ofProgram_of_fails {error : BundleError}
    (hfails : program.Fails path source error) :
    ofProgram path source program = .error error := by
  cases hfails with
  | @duplicateImport earlier later bound hsplit hnodup hmem =>
      have hturn := Interface.bindsInTurn_ofStatements source.toList
        (isBindable_importedNames hparse)
      have hrepeated : Occurrence.firstRepeated [] program.importedNames =
          some bound :=
        (Occurrence.firstRepeated_eq_some_iff List.nodup_nil).mpr
          ⟨earlier, later, hsplit, hnodup, hmem⟩
      apply ofProgram_of_repeated
      generalize Interface.ofStatements source.toList program.statements =
        outcome at hturn ⊢
      cases hturn with
      | all hnone => cases hnone.symm.trans hrepeated
      | upTo hfound =>
          obtain rfl := Option.some.inj (hfound.symm.trans hrepeated)
          rfl
  | unresolvedExport honce hsplit hearlier hmissing =>
      obtain ⟨kinds, interface, hkinds, hbinds⟩ :=
        exists_interface hparse honce
      exact ofProgram_of_undefined hkinds
        ((undefinedExport?_eq_some_iff hparse hkinds hbinds).mpr
          ⟨_, _, hsplit, hearlier, hmissing⟩)
  | illegalReassignment honce hresolve hwritten =>
      obtain ⟨kinds, interface, hkinds, hbinds⟩ :=
        exists_interface hparse honce
      refine ofProgram_of_written hkinds
        ((undefinedExport?_eq_none_iff hparse hkinds hbinds).mpr hresolve) ?_
      have huses := uses_useAll interface.imports.keys
        (program.statements.zip kinds)
      rw [flatMap_importWrites hparse hkinds hbinds, hwritten] at huses
      generalize useAll _ _ _ = outcome at huses ⊢
      cases huses with
      | toEnd hnone => cases hnone
      | upTo hfirst =>
          obtain ⟨rfl, -⟩ := List.cons.inj hfirst
          rfl

/-- Either something is wrong with a program or its analysis succeeds. -/
theorem fails_or_exists_ofProgram (path : Path) :
    (∃ error, program.Fails path source error) ∨
      (∃ analysis, ofProgram path source program = .ok analysis) ∧
        program.ImportsOnce ∧ program.ExportsResolve ∧
        program.KeepsImports := by
  by_cases honce : program.ImportsOnce
  · obtain ⟨kinds, interface, hkinds, hbinds⟩ := exists_interface hparse honce
    cases hdefined : undefinedExport?
        (declareAll (program.statements.zip kinds)).1 interface
        (declareAll (program.statements.zip kinds)).2 with
    | some missing =>
        obtain ⟨earlier, later, hsplit, hearlier, hmissing⟩ :=
          (undefinedExport?_eq_some_iff hparse hkinds hbinds).mp hdefined
        exact .inl ⟨_, .unresolvedExport honce hsplit hearlier hmissing⟩
    | none =>
        have hresolve :=
          (undefinedExport?_eq_none_iff hparse hkinds hbinds).mp hdefined
        have huses := uses_useAll interface.imports.keys
          (program.statements.zip kinds)
        rw [flatMap_importWrites hparse hkinds hbinds] at huses
        cases hused : useAll (declareAll (program.statements.zip kinds)).1
            interface.imports.keys ((program.statements.zip kinds).zip
              (declareAll (program.statements.zip kinds)).2) with
        | error written =>
            rw [hused] at huses
            cases huses with
            | upTo hfirst =>
                exact .inl ⟨_, .illegalReassignment honce hresolve hfirst⟩
        | ok usages =>
            rw [hused] at huses
            cases huses with
            | toEnd hnone =>
                refine .inr ⟨exists_ofProgram_of_used hkinds hdefined hused,
                  honce, hresolve, fun site hsite written hwrites => ?_⟩
                have hmem := program.mem_importWrites_iff.mpr
                  ⟨site, hsite, hwrites⟩
                rw [hnone] at hmem
                exact List.not_mem_nil hmem
  · have hrepeated :=
      (Occurrence.firstRepeated_eq_none_iff List.nodup_nil).not.mpr honce
    obtain ⟨bound, hbound⟩ := Option.ne_none_iff_exists'.mp hrepeated
    obtain ⟨earlier, later, hsplit, hnodup, hmem⟩ :=
      (Occurrence.firstRepeated_eq_some_iff List.nodup_nil).mp hbound
    exact .inl ⟨_, .duplicateImport hsplit hnodup hmem⟩

end Parsed

/-- A module that writes to a member of an import in a function, after a name that
is imported as well but that the function declares further down. -/
def memberWrite : String :=
  "import a, \x7b b \x7d from \"./s\";\n" ++
    "function f() \x7b a = 1; b.c = 2; var a; \x7d\nexport \x7b f \x7d;\n"

end Analysis

end Bundler
