import Bundler.Proofs.Analysis.Definers
import Bundler.Proofs.Analysis.Sources

/-!
# Export clauses

Every clause of an export statement gives an exported name a meaning: a name of
the module itself, or what another module exports.  The tables of a module keep
the former as it is.  The latter they keep as an import, under a key made of the
source and the name, which no binding of the module can have.  Two clauses whose
keys are equal share one import, and it is that of the later one.
-/

namespace Bundler

namespace NameMap

variable {α : Type} {name : String} {value : α}

theorem lookup_append (first second : List (String × α)) :
    lookup name (first ++ second) =
      (lookup name first).or (lookup name second) := by
  induction first with
  | nil => rfl
  | cons entry first ih =>
      rw [List.cons_append, lookup, lookup]
      split
      · rfl
      · exact ih

theorem lookup_singleton (key : String) :
    lookup name [(key, value)] = if name = key then some value else none := by
  simp only [lookup, eq_comm]

/-- Of entries under keys that differ, each is found, in whatever order. -/
theorem lookup_reverse_eq_some_iff {entries : List (String × α)}
    (hnodup : (entries.map (·.1)).Nodup) :
    lookup name entries.reverse = some value ↔ (name, value) ∈ entries := by
  rw [← List.mem_reverse]
  refine ⟨mem_of_lookup_eq_some, lookup_eq_some_of_mem ?_⟩
  rw [List.map_reverse]
  exact List.pairwise_reverse.mpr (hnodup.imp Ne.symm)

theorem exists_lookup_of_mem {entries : List (String × α)}
    (hmem : (name, value) ∈ entries) :
    ∃ found, lookup name entries = some found := by
  induction entries with
  | nil => exact absurd hmem List.not_mem_nil
  | cons entry entries ih =>
      rw [lookup]
      split
      · exact ⟨entry.2, rfl⟩
      · rename_i hkey
        rcases List.mem_cons.mp hmem with rfl | hmem
        · exact absurd rfl hkey
        · exact ih hmem

/-- Inserts entries one after the other. -/
def insertAll (map : NameMap α) (entries : List (String × α)) : NameMap α :=
  entries.foldl (fun map entry => map.insert entry.1 entry.2) map

/-- Of entries that are inserted the last one counts. -/
theorem get?_insertAll (map : NameMap α) (entries : List (String × α)) :
    (map.insertAll entries).get? name =
      (lookup name entries.reverse).or (map.get? name) := by
  induction entries generalizing map with
  | nil => rfl
  | cons entry entries ih =>
      have hrest := ih (map.insert entry.1 entry.2)
      rw [insertAll] at hrest ⊢
      rw [List.foldl_cons, hrest, get?_insert, List.reverse_cons, lookup_append,
        lookup_singleton, Option.or_assoc]
      split <;> rfl

end NameMap

/-- What an exported name stands for. -/
inductive ExportMeaning
  /-- A name of the module, or the slot of its default export. -/
  | own (name : String)
  /-- What another module exports. -/
  | passedOn (source : String) (name : ImportedName)
  deriving DecidableEq

/-- An exported name with what the source says about it. -/
structure ExportClause where
  exported : String
  meaning : ExportMeaning
  span : Span
  deriving DecidableEq

namespace ExportClause

/-- The clause that an item in braces is. -/
def ofItem (source : Option String) (item : Node) : List ExportClause :=
  match item.shape with
  | .exportItem exported asName =>
      let meaning :=
        match source with
        | none => .own exported.text
        | some source => .passedOn source (.ofExportName exported.text)
      [⟨asName.text, meaning, item.span⟩]
  | _ => []

/-- The clauses that an exported declaration stands for, one for each name. -/
def ofDeclaration (isDefault : Bool) (declaration : Node) : List ExportClause :=
  match declaration.shape with
  | .funcDeclaration name _ | .classDeclaration name _ _ =>
      name.declaredName?.toList.map fun declared =>
        let exported := if isDefault then defaultSlot else declared.name
        ⟨exported, .own declared.name, declared.span⟩
  | .varDeclaration _ declarators =>
      (Node.declaredNames declarators).map fun declared =>
        ⟨declared.name, .own declared.name, declared.span⟩
  | _ => []

/-- The clauses of a top-level statement. -/
def ofStatement : Node → List ExportClause
  | .mk _ (.exportItems items source) => items.flatMap (ofItem source)
  | .mk span (.exportAll (some asName) source) =>
      [⟨asName.text, .passedOn source .allExports, span⟩]
  | .mk span (.exportDefault _) => [⟨defaultSlot, .own defaultSlot, span⟩]
  | .mk _ (.exportDeclaration isDefault declaration) =>
      ofDeclaration isDefault declaration
  | _ => []

/-- The name under which the tables keep what the exported name stands for. -/
def localName (clause : ExportClause) : String :=
  match clause.meaning with
  | .own name => name
  | .passedOn source name => Interface.passedOnKey source name

/-- The entry of an exported name. -/
def entry (clause : ExportClause) : String × Export :=
  (clause.exported, ⟨clause.localName, clause.span⟩)

/-- The entry of what another module exports. -/
def passedOn? (clause : ExportClause) : Option (String × Import) :=
  match clause.meaning with
  | .own _ => none
  | .passedOn source name =>
      some (Interface.passedOnKey source name, ⟨source, name, clause.span⟩)

end ExportClause

/-- The export clauses of a program in their order. -/
def Program.exportClauses (program : Program) : List ExportClause :=
  program.statements.flatMap ExportClause.ofStatement

/-- The last of some clauses that passes something on under a key. -/
def lastPassedOn (clauses : List ExportClause) (key : String) : Option Import :=
  NameMap.lookup key (clauses.filterMap (·.passedOn?)).reverse

namespace Node

/-- The names that the clause of an import statement binds. -/
def clauseNames : Option (ImportNames Node) → List Occurrence
  | none => []
  | some (.all asName) => asName.boundNames
  | some (.items items) => items.flatMap fun item =>
      match item.shape with
      | .importItem _ asName => asName.boundNames
      | _ => []

/-- The names that a top-level statement binds to imports. -/
def importedNames (node : Node) : List Occurrence :=
  match node.shape with
  | .importFrom defaultName names _ =>
      defaultName.toList.flatMap boundNames ++ clauseNames names
  | _ => []

theorem allows_importedNames {Allows : Span → String → Prop} {node : Node}
    (hnames : node.Names Allows) :
    ∀ bound ∈ node.importedNames, Allows bound.span bound.name := by
  intro bound hbound
  obtain ⟨span, shape⟩ := node
  rw [importedNames] at hbound
  split at hbound
  · rename_i defaultName names source hshape
    obtain rfl : shape = .importFrom defaultName names source := hshape
    have hpart : ∀ (role : Role) {part : Node},
        (role, part) ∈ (Shape.importFrom defaultName names source).parts →
        part.Names Allows := fun _ _ hpart => hnames.parts _ hpart
    rw [List.mem_append] at hbound
    rcases hbound with hdefault | hclause
    · obtain ⟨pattern, hpattern, hbound⟩ := List.mem_flatMap.mp hdefault
      refine allows_boundNames (hpart .declaration ?_) bound hbound
      exact List.mem_append_left _ (List.mem_map_of_mem hpattern)
    · rw [clauseNames.eq_def] at hclause
      split at hclause
      · exact absurd hclause List.not_mem_nil
      · rename_i asName
        refine allows_boundNames (hpart .declaration ?_) bound hclause
        exact List.mem_append_right _ List.mem_cons_self
      · rename_i items
        obtain ⟨item, hitem, hbound⟩ := List.mem_flatMap.mp hclause
        have hnamed : item.Names Allows := hpart .plain
          (List.mem_append_right _ (List.mem_map_of_mem hitem))
        obtain ⟨itemSpan, itemShape⟩ := item
        split at hbound
        · rename_i imported asName hitemShape
          obtain rfl : itemShape = .importItem imported asName := hitemShape
          exact allows_boundNames
            (hnamed.parts (.declaration, asName) List.mem_cons_self)
            bound hbound
        · exact absurd hbound List.not_mem_nil
  · exact absurd hbound List.not_mem_nil

end Node

namespace Interface

variable {interface first second third : Interface}
  {clauses others : List ExportClause}

/-- A name that stands for a binding of the module holds no number sign. -/
def IsBindable (name : String) : Prop := '#' ∉ name.toList

instance (name : String) : Decidable (IsBindable name) :=
  inferInstanceAs (Decidable ('#' ∉ name.toList))

theorem not_isBindable_passedOnKey (source : String) (name : ImportedName) :
    ¬ IsBindable (passedOnKey source name) := by
  simp [IsBindable, passedOnKey]

/-- The passage from an interface to one with some more clauses in it.  Imports
that the module binds are left out of account. -/
structure Follows (before : Interface) (clauses : List ExportClause)
    (after : Interface) : Prop where
  exports : after.exports = before.exports.insertAll (clauses.map (·.entry))
  imports : ∀ key, ¬ IsBindable key → after.imports.get? key =
    (lastPassedOn clauses key).or (before.imports.get? key)

namespace Follows

theorem refl (interface : Interface) : Follows interface [] interface :=
  ⟨rfl, fun _ _ => rfl⟩

theorem trans (hfirst : Follows first clauses second)
    (hsecond : Follows second others third) :
    Follows first (clauses ++ others) third where
  exports := by
    rw [hsecond.exports, hfirst.exports, List.map_append, NameMap.insertAll,
      NameMap.insertAll, NameMap.insertAll, List.foldl_append]
  imports key hkey := by
    rw [hsecond.imports key hkey, hfirst.imports key hkey, lastPassedOn,
      lastPassedOn, lastPassedOn, List.filterMap_append, List.reverse_append,
      NameMap.lookup_append, Option.or_assoc]

/-- A fold whose steps add some clauses each adds all of them. -/
theorem foldlM {α σ : Type} (view : σ → Interface)
    {step : σ → α → Except Occurrence σ} {values : List α}
    {added : α → List ExportClause} {start last : σ}
    (hstep : ∀ value ∈ values, ∀ before after,
      step before value = .ok after →
      Follows (view before) (added value) (view after))
    (hfold : values.foldlM step start = .ok last) :
    Follows (view start) (values.flatMap added) (view last) := by
  induction values generalizing start with
  | nil =>
      obtain rfl := Except.ok.inj hfold
      exact .refl _
  | cons value values ih =>
      rw [List.foldlM_cons] at hfold
      obtain ⟨between, hfirst, hrest⟩ := Except.bind_eq_ok_iff.mp hfold
      rw [List.flatMap_cons]
      exact (hstep value List.mem_cons_self start between hfirst).trans
        (ih (fun other hother =>
          hstep other (List.mem_cons_of_mem value hother)) hrest)

theorem foldl {α : Type} {step : Interface → α → Interface} {values : List α}
    {added : α → List ExportClause}
    (hstep : ∀ value before, Follows before (added value) (step before value)) :
    Follows first (values.flatMap added) (values.foldl step first) := by
  induction values generalizing first with
  | nil => exact .refl first
  | cons value values ih =>
      rw [List.flatMap_cons]
      exact (hstep value first).trans ih

end Follows

theorem follows_addSource (source : String) :
    Follows interface [] (interface.addSource source) :=
  ⟨rfl, fun _ _ => rfl⟩

theorem follows_addStar (source : String) :
    Follows interface [] (interface.addStar source) :=
  ⟨rfl, fun _ _ => rfl⟩

theorem follows_addExport (exported localName : String) (span : Span) :
    Follows interface [⟨exported, .own localName, span⟩]
      (interface.addExport exported localName span) where
  exports := rfl
  imports _ _ := rfl

theorem follows_passOn (source : String) (name : ImportedName)
    (exported : String) (span : Span) :
    Follows interface [⟨exported, .passedOn source name, span⟩]
      (interface.passOn source name exported span) where
  exports := rfl
  imports key _ := by
    simp only [passOn, addExport, NameMap.get?_insert, lastPassedOn,
      List.filterMap_cons, List.filterMap_nil, List.reverse_singleton,
      ExportClause.passedOn?, NameMap.lookup_singleton]
    split <;> rfl

theorem follows_addImport {source : String} {name : ImportedName}
    {bound : Occurrence} (hbound : IsBindable bound.name)
    (hadd : first.addImport source name bound = .ok second) :
    Follows first [] second := by
  rw [addImport] at hadd
  split at hadd
  · cases hadd
  · obtain rfl := Except.ok.inj hadd
    refine ⟨rfl, fun key hkey => ?_⟩
    rw [NameMap.get?_insert, if_neg]
    · rfl
    · rintro rfl
      exact hkey hbound

theorem follows_addImports {source : String} {name : ImportedName}
    {pattern : Node}
    (hbound : ∀ bound ∈ pattern.boundNames, IsBindable bound.name)
    (hadd : first.addImports source name pattern = .ok second) :
    Follows first [] second := by
  refine Except.foldlM_induction (Follows first []) (.refl first) ?_ hadd
  intro bound hmem before after hbefore hrun
  exact hbefore.trans (follows_addImport (hbound bound hmem) hrun)

theorem follows_addImportItem {source : String} {item : Node}
    (hbound : ∀ bound ∈ Node.clauseNames (some (.items [item])),
      IsBindable bound.name)
    (hadd : first.addImportItem source item = .ok second) :
    Follows first [] second := by
  rw [addImportItem] at hadd
  rw [Node.clauseNames, List.flatMap_singleton] at hbound
  split at hadd
  · rename_i imported asName hshape
    rw [hshape] at hbound
    exact follows_addImports hbound hadd
  · obtain rfl := Except.ok.inj hadd
    exact .refl first

theorem follows_addClause {source : String} {names : Option (ImportNames Node)}
    (hbound : ∀ bound ∈ Node.clauseNames names, IsBindable bound.name)
    (hadd : first.addClause names source = .ok second) :
    Follows first [] second := by
  rw [addClause.eq_def] at hadd
  split at hadd
  · obtain rfl := Except.ok.inj hadd
    exact .refl first
  · exact follows_addImports hbound hadd
  · rename_i items
    refine Except.foldlM_induction (Follows first []) (.refl first) ?_ hadd
    intro item hmem before after hbefore hrun
    refine hbefore.trans (follows_addImportItem ?_ hrun)
    intro bound hitem
    rw [Node.clauseNames, List.flatMap_singleton] at hitem
    exact hbound bound (List.mem_flatMap.mpr ⟨item, hmem, hitem⟩)

/-- An import statement exports nothing. -/
theorem follows_addImportStatement {span : Span} {source : String}
    {defaultName : Option Node} {names : Option (ImportNames Node)}
    (hbound : ∀ bound ∈
      (Node.mk span (.importFrom defaultName names source)).importedNames,
      IsBindable bound.name)
    (hadd : first.addImportStatement defaultName names source = .ok second) :
    Follows first [] second := by
  obtain ⟨hdefaultBound, hclauseBound⟩ := List.forall_mem_append.mp hbound
  obtain ⟨between, hbetween, hnames⟩ : ∃ between,
      Follows (first.addSource source) [] between ∧
      between.addClause names source = .ok second := by
    cases defaultName with
    | none => exact ⟨_, .refl _, hadd⟩
    | some pattern =>
        obtain ⟨between, hdefault, hnames⟩ := Except.bind_eq_ok_iff.mp hadd
        refine ⟨between, follows_addImports (fun bound hmem => ?_) hdefault,
          hnames⟩
        exact hdefaultBound bound
          (List.mem_flatMap.mpr ⟨pattern, List.mem_cons_self, hmem⟩)
  exact ((follows_addSource source).trans hbetween).trans
    (follows_addClause hclauseBound hnames)

theorem follows_addExportItem (source : Option String) (item : Node) :
    Follows interface (ExportClause.ofItem source item)
      (interface.addExportItem source item) := by
  obtain ⟨span, shape⟩ := item
  cases shape with
  | exportItem exported asName =>
      cases source with
      | none => exact follows_addExport _ _ _
      | some source => exact follows_passOn _ _ _ _
  | _ => cases source <;> exact .refl interface

theorem follows_addExportItems (items : List Node) (source : Option String) :
    Follows interface (items.flatMap (ExportClause.ofItem source))
      (interface.addExportItems items source) := by
  have hitems : ∀ start : Interface,
      Follows start (items.flatMap (ExportClause.ofItem source))
        (items.foldl (·.addExportItem source ·) start) := fun _ =>
    .foldl fun item _ => follows_addExportItem source item
  cases source with
  | none => exact hitems interface
  | some source => exact (follows_addSource source).trans (hitems _)

theorem follows_addDeclaration (isDefault : Bool) (declaration : Node) :
    Follows interface (ExportClause.ofDeclaration isDefault declaration)
      (interface.addDeclaration isDefault declaration) := by
  obtain ⟨span, shape⟩ := declaration
  cases shape with
  | funcDeclaration name _ | classDeclaration name _ _ =>
      simp only [addDeclaration, ExportClause.ofDeclaration, Node.shape]
      cases name.declaredName? with
      | none => exact .refl interface
      | some declared => exact follows_addExport _ _ _
  | varDeclaration kind declarators =>
      rw [show ExportClause.ofDeclaration isDefault
        (.mk span (.varDeclaration kind declarators)) =
          (Node.declaredNames declarators).map _ from rfl, List.map_eq_flatMap]
      exact .foldl fun declared _ => follows_addExport _ _ _
  | _ => exact .refl interface

/-- A statement adds its clauses. -/
theorem follows_addStatement {text : List Char} {statement : Node}
    {kind : StatementKind}
    (hbound : ∀ bound ∈ statement.importedNames, IsBindable bound.name)
    (hadd : first.addStatement text statement = .ok (kind, second)) :
    Follows first (ExportClause.ofStatement statement) second := by
  obtain ⟨span, shape⟩ := statement
  cases shape with
  | importFrom defaultName names source =>
      obtain ⟨between, hstatement, hadd⟩ := Except.bind_eq_ok_iff.mp hadd
      obtain ⟨_, rfl⟩ := Prod.mk.inj (Except.ok.inj hadd)
      exact follows_addImportStatement hbound hstatement
  | exportItems items source =>
      obtain ⟨_, rfl⟩ := Prod.mk.inj (Except.ok.inj hadd)
      exact follows_addExportItems items source
  | exportAll asName source =>
      obtain ⟨_, rfl⟩ := Prod.mk.inj (Except.ok.inj hadd)
      apply (follows_addSource source).trans
      cases asName with
      | none => exact follows_addStar source
      | some asName => exact follows_passOn source .allExports asName.text span
  | exportDefault value =>
      obtain ⟨_, rfl⟩ := Prod.mk.inj (Except.ok.inj hadd)
      exact follows_addExport defaultSlot defaultSlot span
  | exportDeclaration isDefault declaration =>
      obtain ⟨_, rfl⟩ := Prod.mk.inj (Except.ok.inj hadd)
      exact follows_addDeclaration isDefault declaration
  | _ =>
      obtain ⟨_, rfl⟩ := Prod.mk.inj (Except.ok.inj hadd)
      exact .refl first

/-- The interface of a module is made of its clauses and of imports that it
binds. -/
theorem follows_ofStatements {text : List Char} {statements : List Node}
    {kinds : List StatementKind}
    (hbound : ∀ statement ∈ statements, ∀ bound ∈ statement.importedNames,
      IsBindable bound.name)
    (hstatements : ofStatements text statements = .ok (kinds, interface)) :
    Follows empty (statements.flatMap ExportClause.ofStatement) interface := by
  rw [ofStatements] at hstatements
  obtain ⟨⟨reversed, found⟩, hfold, hresult⟩ :=
    Except.bind_eq_ok_iff.mp hstatements
  obtain ⟨_, rfl⟩ := Prod.mk.inj (Except.ok.inj hresult)
  refine Follows.foldlM (·.2) ?_ hfold
  rintro statement hmem ⟨kinds, before⟩ _ hstep
  obtain ⟨⟨kind, after⟩, hadd, hstep⟩ := Except.bind_eq_ok_iff.mp hstep
  obtain rfl := Except.ok.inj hstep
  exact follows_addStatement (hbound statement hmem) hadd

/-- The tables say of an exported name what its clause says. -/
def Agrees (interface : Interface) (clause : ExportClause) : Prop :=
  ∃ entry, interface.exports.get? clause.exported = some entry ∧
    entry.span = clause.span ∧
    match clause.meaning with
    | .own name => entry.localName = name
    | .passedOn source name => ∃ imported,
        interface.imports.get? entry.localName = some imported ∧
        imported.source = source ∧ imported.name = name

section Agreement

variable {clause : ExportClause}

theorem Follows.get?_exports (h : Follows empty clauses interface)
    (hnodup : (clauses.map (·.exported)).Nodup) (hclause : clause ∈ clauses) :
    interface.exports.get? clause.exported =
      some ⟨clause.localName, clause.span⟩ := by
  have hkeys : ((clauses.map (·.entry)).map (·.1)).Nodup := by
    rw [List.map_map]
    exact hnodup
  have hentry : (clause.exported, (⟨clause.localName, clause.span⟩ : Export)) ∈
      clauses.map (·.entry) := List.mem_map_of_mem hclause
  rw [h.exports, NameMap.get?_insertAll,
    (NameMap.lookup_reverse_eq_some_iff hkeys).mpr hentry]
  rfl

/-- What is passed on agrees exactly if it is the last under its key. -/
theorem Follows.agrees_iff (h : Follows empty clauses interface)
    (hnodup : (clauses.map (·.exported)).Nodup) (hclause : clause ∈ clauses) :
    interface.Agrees clause ↔ ∀ source name,
      clause.meaning = .passedOn source name →
      ∃ last, lastPassedOn clauses clause.localName = some last ∧
        last.source = source ∧ last.name = name := by
  have hexports := h.get?_exports hnodup hclause
  obtain ⟨exported, meaning, span⟩ := clause
  cases meaning with
  | own own =>
      constructor
      · intro _ _ _ hmeaning
        cases hmeaning
      · exact fun _ => ⟨_, hexports, rfl, rfl⟩
  | passedOn source name =>
      have himports := h.imports _ (not_isBindable_passedOnKey source name)
      rw [show empty.imports = .empty from rfl, NameMap.get?_empty,
        Option.or_none] at himports
      constructor
      · rintro ⟨entry, hentry, _, imported, himported, hsame⟩ _ _ ⟨⟩
        rw [hexports] at hentry
        obtain rfl := Option.some.inj hentry
        exact ⟨imported, himports.symm.trans himported, hsame⟩
      · intro hlast
        obtain ⟨last, hfound, hsame⟩ := hlast source name rfl
        exact ⟨_, hexports, rfl, last, himports.trans hfound, hsame⟩

end Agreement

end Interface

/-! ### Keys -/

/-- A list falls apart in one way at its last separator. -/
theorem List.eq_of_append_cons_eq {α : Type} {separator : α}
    {first second before after : List α}
    (hsecond : separator ∉ second) (hafter : separator ∉ after)
    (heq : first ++ separator :: second = before ++ separator :: after) :
    first = before ∧ second = after := by
  have hcut : ∀ {rest some others : List α}, separator ∉ some →
      separator :: some = rest ++ separator :: others →
      rest = [] ∧ some = others := by
    intro rest some others hsome hrest
    cases rest with
    | nil => exact ⟨rfl, (List.cons.inj hrest).2⟩
    | cons c rest =>
        rw [(List.cons.inj hrest).2] at hsome
        exact absurd (List.mem_append_right rest List.mem_cons_self) hsome
  rcases List.append_eq_append_iff.mp heq with
    ⟨rest, rfl, hrest⟩ | ⟨rest, rfl, hrest⟩
  · obtain ⟨rfl, rfl⟩ := hcut hsecond hrest
    exact ⟨(List.append_nil first).symm, rfl⟩
  · obtain ⟨rfl, rfl⟩ := hcut hafter hrest
    exact ⟨List.append_nil before, rfl⟩

/-- A name of another module that no other name shares its key with: it is
neither the asterisk, which a string can be, nor holds a number sign. -/
def ImportedName.IsPlain : ImportedName → Prop
  | .named name => name ≠ namespaceSlot ∧ Interface.IsBindable name
  | _ => True

/-- A clause passes on a plain name, if anything. -/
def ExportClause.IsPlain (clause : ExportClause) : Prop :=
  ∀ source name, clause.meaning = .passedOn source name → name.IsPlain

/-- The name of the default export of another module. -/
theorem ImportedName.ofExportName_ne (name : String) :
    ofExportName name ≠ .named defaultSlot := by
  rw [ofExportName]
  split
  · exact ImportedName.noConfusion
  · rename_i hname
    exact fun heq => hname (ImportedName.named.inj heq)

/-- The default export of another module is not passed on as one of its
names. -/
theorem ExportClause.ne_named_default {statement : Node} {clause : ExportClause}
    (hclause : clause ∈ ofStatement statement) (source : String) :
    clause.meaning ≠ .passedOn source (.named defaultSlot) := by
  intro hmeaning
  obtain ⟨span, shape⟩ := statement
  cases shape with
  | exportItems items origin =>
      obtain ⟨⟨itemSpan, itemShape⟩, _, hitem⟩ := List.mem_flatMap.mp hclause
      cases itemShape with
      | exportItem exported asName =>
          obtain rfl := List.mem_singleton.mp hitem
          cases origin with
          | none => cases hmeaning
          | some origin =>
              exact ImportedName.ofExportName_ne exported.text
                (ExportMeaning.passedOn.inj hmeaning).2
      | _ => exact absurd hitem List.not_mem_nil
  | exportAll asName origin =>
      cases asName with
      | none => exact absurd hclause List.not_mem_nil
      | some asName =>
          obtain rfl := List.mem_singleton.mp hclause
          cases hmeaning
  | exportDefault value =>
      obtain rfl := List.mem_singleton.mp hclause
      cases hmeaning
  | exportDeclaration isDefault declaration =>
      have hown : ∀ {declared : List Occurrence}
          {exported : Occurrence → String},
          clause ∉ declared.map fun declared =>
            ⟨exported declared, .own declared.name, declared.span⟩ := by
        intro declared exported hmem
        obtain ⟨_, _, rfl⟩ := List.mem_map.mp hmem
        cases hmeaning
      obtain ⟨declarationSpan, declarationShape⟩ := declaration
      cases declarationShape with
      | funcDeclaration name func => exact hown hclause
      | classDeclaration name heritage members => exact hown hclause
      | varDeclaration kind declarators => exact hown hclause
      | _ => exact absurd hclause List.not_mem_nil
  | _ => exact absurd hclause List.not_mem_nil

namespace ImportedName

variable {first second : ImportedName}

/-- The key of an import that binds no name, after the number sign. -/
def keyPart (name : ImportedName) : String :=
  name.exportName?.getD namespaceSlot

theorem isBindable_keyPart (hplain : first.IsPlain) :
    Interface.IsBindable first.keyPart := by
  cases first with
  | named name => exact hplain.2
  | _ => decide

theorem eq_of_keyPart_eq (hfirst : first.IsPlain) (hsecond : second.IsPlain)
    (hnamed : first ≠ .named defaultSlot) (hother : second ≠ .named defaultSlot)
    (heq : first.keyPart = second.keyPart) : first = second := by
  cases first with
  | defaultExport => cases second with
    | defaultExport => rfl
    | allExports => exact absurd heq (by decide)
    | named name => exact absurd (congrArg named heq.symm) hother
  | allExports => cases second with
    | defaultExport => exact absurd heq (by decide)
    | allExports => rfl
    | named name => exact absurd heq.symm hsecond.1
  | named name => cases second with
    | defaultExport => exact absurd (congrArg named heq) hnamed
    | allExports => exact absurd heq hfirst.1
    | named other => exact congrArg named heq

end ImportedName

/-- Among plain names the key tells the source and the name. -/
theorem Interface.passedOnKey_inj {source other : String}
    {first second : ImportedName}
    (hfirst : first.IsPlain) (hsecond : second.IsPlain)
    (hnamed : first ≠ .named defaultSlot) (hother : second ≠ .named defaultSlot)
    (heq : passedOnKey source first = passedOnKey other second) :
    source = other ∧ first = second := by
  have hlists : source.toList ++ '#' :: first.keyPart.toList =
      other.toList ++ '#' :: second.keyPart.toList := by
    simpa [passedOnKey, ImportedName.keyPart] using congrArg String.toList heq
  obtain ⟨hsource, hpart⟩ := List.eq_of_append_cons_eq
    (ImportedName.isBindable_keyPart hfirst)
    (ImportedName.isBindable_keyPart hsecond) hlists
  exact ⟨String.toList_inj.mp hsource, ImportedName.eq_of_keyPart_eq hfirst
    hsecond hnamed hother (String.toList_inj.mp hpart)⟩

/-- Something is found under the key of what is passed on, and it is passed on
under the same key. -/
theorem exists_lastPassedOn {clauses : List ExportClause}
    {clause : ExportClause} {source : String} {name : ImportedName}
    (hclause : clause ∈ clauses)
    (hmeaning : clause.meaning = .passedOn source name) :
    ∃ other ∈ clauses, ∃ origin last, other.meaning = .passedOn origin last ∧
      Interface.passedOnKey origin last = Interface.passedOnKey source name ∧
      lastPassedOn clauses clause.localName =
        some ⟨origin, last, other.span⟩ := by
  have hkey : clause.localName = Interface.passedOnKey source name := by
    rw [ExportClause.localName, hmeaning]
  have hpassed : clause.passedOn? =
      some (clause.localName, ⟨source, name, clause.span⟩) := by
    rw [ExportClause.passedOn?, hmeaning, hkey]
  have hmem : (clause.localName, (⟨source, name, clause.span⟩ : Import)) ∈
      (clauses.filterMap (·.passedOn?)).reverse :=
    List.mem_reverse.mpr (List.mem_filterMap.mpr ⟨clause, hclause, hpassed⟩)
  obtain ⟨found, hfound⟩ := NameMap.exists_lookup_of_mem hmem
  obtain ⟨other, hother, hentry⟩ := List.mem_filterMap.mp
    (List.mem_reverse.mp (NameMap.mem_of_lookup_eq_some hfound))
  refine ⟨other, hother, ?_⟩
  rw [ExportClause.passedOn?] at hentry
  split at hentry
  · cases hentry
  · rename_i origin last hlast
    obtain ⟨hsame, rfl⟩ := Prod.mk.inj (Option.some.inj hentry)
    exact ⟨origin, last, hlast, hsame.trans hkey, hfound⟩

/-- Names that stand where words are consumed may stand for bindings. -/
theorem Naming.isBindable_of_knows {base : Nat} {stream : TokenStream}
    (h : stream.Lexes base) {name : String}
    (hknows : (ofConsumed base stream).Knows name) :
    Interface.IsBindable name := by
  obtain ⟨span, ⟨token, ⟨index, next, hbase, _, hnext, rfl⟩, hword, _, rfl⟩ |
    ⟨_, rfl⟩⟩ := hknows
  · intro hmem
    have hisWord := TokenKind.isWord_of_mayName hword
    rw [h.lexed index next hbase hnext] at hisWord hmem
    exact absurd (isWordPart_of_isWord hisWord '#' hmem) (by decide)
  · decide

namespace Analysis

variable {path : Path} {source : String} {program : Program}
  {analysis : Analysis}

/-- A name that an analysed module declares holds no number sign. -/
theorem isBindable_of_contains (hparse : Program.parse source = .ok program)
    (hanalysis : ofProgram path source program = .ok analysis) {name : String}
    (hname : analysis.tree.contains ScopeTree.root name = true) :
    Interface.IsBindable name := by
  obtain ⟨last, hlast, hfits⟩ := Program.fits_of_parse hparse
  obtain ⟨kinds, _, _, htree, _⟩ := ofProgram_eq_ok hanalysis
  rw [htree, declareAll_eq] at hname
  rcases mem_defines_of_contains (by decide) hname with
    hinitial | ⟨defines, hdefines, hdefined⟩
  · cases hinitial
  · rcases knows_declareFrom (fun statement hmem =>
      hfits statement.1 (List.of_mem_zip hmem).1) defines hdefines name
        hdefined with rfl | hknows
    · decide
    · exact Naming.isBindable_of_knows hlast hknows

/-- A name that an analysed module imports holds no number sign. -/
theorem isBindable_importedNames (hparse : Program.parse source = .ok program) :
    ∀ statement ∈ program.statements, ∀ bound ∈ statement.importedNames,
      Interface.IsBindable bound.name := by
  obtain ⟨last, hlast, hfits⟩ := Program.fits_of_parse hparse
  intro statement hstatement bound hbound
  exact Naming.isBindable_of_knows hlast ⟨bound.span,
    Node.allows_importedNames (hfits statement hstatement).names bound hbound⟩

/-- Where no exported name is given twice, the tables agree with each clause
that names something of the module.  They agree with a clause that passes
something on exactly if no later one passes on something else under the same
key, which none does if all names passed on are plain.  No binding of the module
has such a key. -/
theorem exports_agree (hparse : Program.parse source = .ok program)
    (hanalysis : ofProgram path source program = .ok analysis)
    (hnodup : (program.exportClauses.map (·.exported)).Nodup) :
    (∀ clause ∈ program.exportClauses,
      analysis.interface.Agrees clause ↔ ∀ origin name,
        clause.meaning = .passedOn origin name →
        ∃ last, lastPassedOn program.exportClauses clause.localName =
            some last ∧ last.source = origin ∧ last.name = name) ∧
    ((∀ clause ∈ program.exportClauses, clause.IsPlain) →
      ∀ clause ∈ program.exportClauses, analysis.interface.Agrees clause) ∧
    ∀ origin name,
      analysis.tree.contains ScopeTree.root
          (Interface.passedOnKey origin name) = false ∧
        ∀ statement ∈ program.statements, ∀ bound ∈ statement.importedNames,
          bound.name ≠ Interface.passedOnKey origin name := by
  obtain ⟨_, _, hinterface, _⟩ := ofProgram_eq_ok hanalysis
  have hbindable := isBindable_importedNames hparse
  have hagrees := fun clause (hclause : clause ∈ program.exportClauses) =>
    (Interface.follows_ofStatements hbindable hinterface).agrees_iff hnodup
      hclause
  refine ⟨hagrees, fun hplain clause hclause => ?_, fun origin name => ⟨?_, ?_⟩⟩
  · refine (hagrees clause hclause).mpr fun origin name hmeaning => ?_
    obtain ⟨other, hother, last, found, hlast, hkey, hfound⟩ :=
      exists_lastPassedOn hclause hmeaning
    obtain ⟨_, _, hin⟩ := List.mem_flatMap.mp hclause
    obtain ⟨_, _, hotherIn⟩ := List.mem_flatMap.mp hother
    obtain ⟨rfl, rfl⟩ := Interface.passedOnKey_inj
      (hplain other hother last found hlast)
      (hplain clause hclause origin name hmeaning)
      (fun hdefault => ExportClause.ne_named_default hotherIn last
        (hdefault ▸ hlast))
      (fun hdefault => ExportClause.ne_named_default hin origin
        (hdefault ▸ hmeaning)) hkey
    exact ⟨_, hfound, rfl, rfl⟩
  · apply Bool.eq_false_iff.mpr
    exact fun hdeclared => Interface.not_isBindable_passedOnKey origin name
      (isBindable_of_contains hparse hanalysis hdeclared)
  · intro statement hstatement bound hbound heq
    exact Interface.not_isBindable_passedOnKey origin name
      (heq ▸ hbindable statement hstatement bound hbound)

/-- A module that exports an import, a declaration, a name of another module and
all of that module's exports at once. -/
def allClauses : String :=
  "import { a } from './a';\nexport { a as b };\nexport let v = 1;\n" ++
    "export { x as y } from './s';\nexport * as w from './s';\n"

/-- The tables agree with all of the module's clauses. -/
theorem exports_agree_allClauses :
    ∃ program analysis, Program.parse allClauses = .ok program ∧
      ofProgram ⟨"/m.js"⟩ allClauses program = .ok analysis ∧
      program.exportClauses.map
          (fun clause => (clause.exported, clause.meaning)) =
        [("b", .own "a"), ("v", .own "v"), ("y", .passedOn "./s" (.named "x")),
          ("w", .passedOn "./s" .allExports)] ∧
      ∀ clause ∈ program.exportClauses, analysis.interface.Agrees clause := by
  have hfacts : ((Program.parse allClauses).toOption.any fun program =>
      decide (program.exportClauses.map
          (fun clause => (clause.exported, clause.meaning)) =
        [("b", .own "a"), ("v", .own "v"), ("y", .passedOn "./s" (.named "x")),
          ("w", .passedOn "./s" .allExports)]) &&
        (ofProgram ⟨"/m.js"⟩ allClauses program).toOption.any fun _ => true) =
      true := by decide +kernel
  obtain ⟨program, hparse, hfacts⟩ := Except.exists_of_any_toOption hfacts
  rw [Bool.and_eq_true, decide_eq_true_eq] at hfacts
  obtain ⟨hclauses, hrun⟩ := hfacts
  obtain ⟨analysis, hanalysis, _⟩ := Except.exists_of_any_toOption hrun
  have hnodup : (program.exportClauses.map (·.exported)).Nodup := by
    have hnames := congrArg (List.map Prod.fst) hclauses
    rw [List.map_map] at hnames
    exact hnames ▸ (by decide : ["b", "v", "y", "w"].Nodup)
  refine ⟨program, analysis, hparse, hanalysis, hclauses,
    (exports_agree hparse hanalysis hnodup).2.1 ?_⟩
  intro clause hclause origin name hmeaning
  have hmem : (clause.exported, clause.meaning) ∈ _ :=
    hclauses ▸ List.mem_map_of_mem hclause
  simp only [hmeaning, List.mem_cons, Prod.mk.injEq, reduceCtorEq, and_false,
    ExportMeaning.passedOn.injEq, List.not_mem_nil, or_false, false_or] at hmem
  obtain ⟨_, _, rfl⟩ | ⟨_, _, rfl⟩ := hmem
  · exact ⟨by decide, by decide⟩
  · trivial

/-- A module that passes on all exports of another one, and the one whose name
is an asterisk. -/
def sharedKey : String :=
  "export * as z from 'ext';\nexport \x7b '*' as y \x7d from 'ext';"

/-- The tables take the object of all exports for the one named by an
asterisk. -/
theorem exports_disagree :
    ∃ program analysis, Program.parse sharedKey = .ok program ∧
      ofProgram ⟨"/m.js"⟩ sharedKey program = .ok analysis ∧
      (program.exportClauses.map (·.exported)).Nodup ∧
      ∃ clause ∈ program.exportClauses, clause.exported = "z" ∧
        clause.meaning = .passedOn "ext" .allExports ∧
        analysis.interface.exports.get? "z" = some ⟨"ext#*", clause.span⟩ ∧
        (analysis.interface.imports.get? "ext#*").map (·.name) =
          some (.named "*") ∧
        ¬ analysis.interface.Agrees clause := by
  have hfacts : ((Program.parse sharedKey).toOption.any fun program =>
      decide (program.exportClauses =
        [⟨"z", .passedOn "ext" .allExports, ⟨0, 25⟩⟩,
          ⟨"y", .passedOn "ext" (.named "*"), ⟨35, 43⟩⟩]) &&
      (ofProgram ⟨"/m.js"⟩ sharedKey program).toOption.any fun analysis =>
        decide (analysis.interface.exports.get? "z" =
          some ⟨"ext#*", ⟨0, 25⟩⟩) &&
        decide ((analysis.interface.imports.get? "ext#*").map (·.name) =
          some (.named "*"))) = true := by decide +kernel
  obtain ⟨program, hparse, hfacts⟩ := Except.exists_of_any_toOption hfacts
  rw [Bool.and_eq_true, decide_eq_true_eq] at hfacts
  obtain ⟨hclauses, hrun⟩ := hfacts
  obtain ⟨analysis, hanalysis, hfacts⟩ := Except.exists_of_any_toOption hrun
  rw [Bool.and_eq_true, decide_eq_true_eq, decide_eq_true_eq] at hfacts
  obtain ⟨hexport, himport⟩ := hfacts
  refine ⟨program, analysis, hparse, hanalysis, ?_, _,
    hclauses ▸ List.mem_cons_self, rfl, rfl, hexport, himport, ?_⟩
  · rw [hclauses]
    decide
  · rintro ⟨entry, hentry, _, imported, hfound, _, hname⟩
    obtain rfl := Option.some.inj (hexport.symm.trans hentry)
    rw [hfound] at himport
    cases hname.symm.trans (Option.some.inj himport)

end Analysis

end Bundler
