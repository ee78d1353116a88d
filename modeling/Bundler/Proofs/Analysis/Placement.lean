import Bundler.Proofs.Analysis.Scopes
import Bundler.Proofs.Graph.Reachable

/-!
# Where references stand

The second walk through a module records its references without the scopes that
they stand in.  The walk here goes the same way and keeps the scopes, so it
tells for each recorded reference which functions and blocks are around it, none
of which binds the name.
-/

namespace Bundler

/-- A reference with the scope that it stands in. -/
structure PlacedReference where
  scope : Nat
  reference : Reference

/-- The references found on a walk, and the number of scopes met so far. -/
structure Placement where
  scopesSeen : Nat
  references : List PlacedReference

namespace UsageContext

variable (context : UsageContext) (scope : Nat)

/-- Places a name that is read, declared or assigned. -/
def placeRead (isShorthand : Bool) (placement : Placement)
    (found : Occurrence) : Placement :=
  if found.span.isEmpty || context.isLocal scope found.name then placement
  else
    let placed := ⟨scope, ⟨found.span, found.name, isShorthand⟩⟩
    { placement with references := placement.references ++ [placed] }

/-- Places the name of a declared function or class. -/
def placeDeclared (placement : Placement) (found : Occurrence) : Placement :=
  if context.isModuleLevel scope found.name then
    let placed := ⟨scope, ⟨found.span, found.name, false⟩⟩
    { placement with references := placement.references ++ [placed] }
  else placement

end UsageContext

namespace Placement

def enter (placement : Placement) (scope : Nat) (new : Option NewScope) :
    Nat × Placement :=
  if new.isSome then
    let inner := placement.scopesSeen + 1
    (inner, { placement with scopesSeen := inner })
  else (scope, placement)

variable (context : UsageContext)

/-- Walks through a node within a scope. -/
def visit (isShorthand : Bool) (scope : Nat) (node : Node)
    (placement : Placement) : Placement :=
  let (inner, placement) := placement.enter scope (node.newScope? none)
  let placement := node.nameOfDeclaration?.toList.foldl
    (context.placeDeclared inner) placement
  let placement := node.readName?.toList.foldl
    (context.placeRead inner isShorthand) placement
  node.parts.attach.foldl
    (fun placement part =>
      visit (node.partIsShorthand part.1.1) inner part.1.2 placement)
    placement
termination_by sizeOf node
decreasing_by exact Node.sizeOf_lt_of_mem_parts part.2

/-- Walks through a top-level statement, before which some scopes were met. -/
def visitStatement (scopesSeen : Nat) (statement : Node) : Placement :=
  visit context false ScopeTree.root statement ⟨scopesSeen, []⟩

/-- Walks through top-level statements that come with the names they define. -/
def ofStatements (tree : ScopeTree) (imports : List String) :
    Nat → List ((Node × StatementKind) × List String) →
      List (List PlacedReference)
  | _, [] => []
  | seen, ((statement, kind), defines) :: others =>
      if kind.isImport then [] :: ofStatements tree imports seen others
      else
        let found := visitStatement ⟨tree, imports, defines⟩ seen statement
        found.references :: ofStatements tree imports found.scopesSeen others

end Placement

namespace Module

/-- The references of a statement of a module with their scopes. -/
def placedReferences (module : Module) (id : Nat) : List PlacedReference :=
  match Program.parse module.source with
  | .error _ => []
  | .ok program =>
      let text := module.source.toList
      match Interface.ofStatements text program.statements with
      | .error _ => []
      | .ok (kinds, interface) =>
          let statements := program.statements.zip kinds
          let (tree, defines) := Analysis.declareAll statements
          let placed := Placement.ofStatements tree interface.imports.keys 0
            (statements.zip defines)
          placed[id]?.getD []

end Module

namespace Placement

variable {context : UsageContext}

/-- A walk that keeps the scopes finds what the walk without them finds. -/
structure Matches (usage : Usage) (placement : Placement) : Prop where
  scopesSeen : usage.scopesSeen = placement.scopesSeen
  references : usage.references = placement.references.map (·.reference)

namespace Matches

variable {usage : Usage} {placement : Placement} {scope : Nat}

theorem write (hmatches : Matches usage placement) (isCertain : Bool)
    (found : Occurrence) :
    Matches (context.write scope isCertain usage found) placement := by
  rw [UsageContext.write]
  split
  · exact hmatches
  · split
    · exact ⟨hmatches.scopesSeen, hmatches.references⟩
    · exact ⟨hmatches.scopesSeen, hmatches.references⟩

theorem read (hmatches : Matches usage placement) (isShorthand : Bool)
    (found : Occurrence) :
    Matches (context.read scope isShorthand usage found)
      (context.placeRead scope isShorthand placement found) := by
  rw [UsageContext.read, UsageContext.placeRead]
  split
  · exact hmatches
  · refine ⟨hmatches.scopesSeen, ?_⟩
    simp only [hmatches.references, List.map_append, List.map_cons,
      List.map_nil]

theorem nameDeclared (hmatches : Matches usage placement)
    (found : Occurrence) :
    Matches (context.nameDeclared scope usage found)
      (context.placeDeclared scope placement found) := by
  rw [UsageContext.nameDeclared, UsageContext.placeDeclared]
  split
  · refine ⟨hmatches.scopesSeen, ?_⟩
    simp only [hmatches.references, List.map_append, List.map_cons,
      List.map_nil]
  · exact hmatches

theorem enter (hmatches : Matches usage placement) (scope : Nat)
    (new : Option NewScope) :
    (usage.enter scope new).1 = (placement.enter scope new).1 ∧
      Matches (usage.enter scope new).2 (placement.enter scope new).2 := by
  rw [Usage.enter, Placement.enter]
  split
  · rw [hmatches.scopesSeen]
    exact ⟨rfl, rfl, hmatches.references⟩
  · exact ⟨rfl, hmatches⟩

end Matches

theorem matches_visit (node : Node) (isShorthand : Bool) (scope : Nat)
    {usage : Usage} {placement : Placement}
    (hmatches : Matches usage placement) :
    Matches (Usage.visit context isShorthand scope node usage)
      (visit context isShorthand scope node placement) := by
  induction node using Node.parts_induction
    generalizing isShorthand scope usage placement with
  | hnode node ih =>
    rw [Usage.visit, visit]
    obtain ⟨hinner, hentered⟩ := hmatches.enter scope (node.newScope? none)
    generalize usage.enter scope (node.newScope? none) = entering at *
    generalize placement.enter scope (node.newScope? none) = placing at *
    obtain ⟨inner, used⟩ := entering
    obtain ⟨other, placed⟩ := placing
    obtain rfl : inner = other := hinner
    have hcertain : Matches
        (node.certainWrites.foldl (context.write inner true) used) placed :=
      List.foldlRecOn _ _ (motive := (Matches · placed)) hentered
        fun _ hlater found _ => hlater.write true found
    have hpossible : Matches
        (node.possibleWrites.foldl (context.write inner false) _) placed :=
      List.foldlRecOn _ _ (motive := (Matches · placed)) hcertain
        fun _ hlater found _ => hlater.write false found
    have hdeclared : Matches
        (node.nameOfDeclaration?.toList.foldl (context.nameDeclared inner) _)
        (node.nameOfDeclaration?.toList.foldl (context.placeDeclared inner)
          placed) :=
      List.foldl_rel hpossible fun found _ _ _ hlater =>
        hlater.nameDeclared found
    have hread : Matches
        (node.readName?.toList.foldl (context.read inner isShorthand) _)
        (node.readName?.toList.foldl (context.placeRead inner isShorthand) _) :=
      List.foldl_rel hdeclared fun found _ _ _ hlater =>
        hlater.read isShorthand found
    exact List.foldl_rel hread fun part _ _ _ hlater =>
      ih part.1 part.2 _ inner hlater

theorem matches_visitStatement (seen : Nat) (statement : Node) :
    Matches (Usage.visitStatement context seen statement)
      (visitStatement context seen statement) := by
  have hstart : Matches ⟨seen, [], [], [], none⟩ ⟨seen, []⟩ := ⟨rfl, rfl⟩
  exact matches_visit statement false ScopeTree.root hstart

/-- No function or block around a placed reference binds its name. -/
def IsFree (tree : ScopeTree) (references : List PlacedReference) : Prop :=
  ∀ placed ∈ references,
    ¬ tree.BindsAround placed.scope placed.reference.name

section IsFree

variable (hordered : context.tree.IsOrdered) {scope : Nat}
  {placement : Placement}
include hordered

theorem isFree_placeRead
    (hfree : IsFree context.tree placement.references) (isShorthand : Bool)
    (found : Occurrence) :
    IsFree context.tree
      (context.placeRead scope isShorthand placement found).references := by
  rw [UsageContext.placeRead]
  split
  · exact hfree
  · rename_i hread
    simp only [Bool.or_eq_true, not_or] at hread
    have hnew : ¬ context.tree.BindsAround scope found.name := by
      rw [hordered.bindsAround_iff]
      exact hread.2
    intro placed hplaced
    cases List.mem_append.mp hplaced with
    | inl hold => exact hfree placed hold
    | inr hlast =>
        rw [List.mem_singleton.mp hlast]
        exact hnew

theorem isFree_placeDeclared
    (hfree : IsFree context.tree placement.references) (found : Occurrence) :
    IsFree context.tree
      (context.placeDeclared scope placement found).references := by
  rw [UsageContext.placeDeclared]
  split
  · rename_i hlevel
    have hfound : context.tree.findScope? scope found.name =
        some ScopeTree.root := by
      simpa [UsageContext.isModuleLevel] using hlevel
    have hnew : ¬ context.tree.BindsAround scope found.name := by
      rw [hordered.bindsAround_iff, hfound]
      simp
    intro placed hplaced
    cases List.mem_append.mp hplaced with
    | inl hold => exact hfree placed hold
    | inr hlast =>
        rw [List.mem_singleton.mp hlast]
        exact hnew
  · exact hfree

theorem isFree_visit (node : Node) (isShorthand : Bool) (scope : Nat)
    (hfree : IsFree context.tree placement.references) :
    IsFree context.tree
      (visit context isShorthand scope node placement).references := by
  induction node using Node.parts_induction
    generalizing isShorthand scope placement with
  | hnode node ih =>
    rw [visit]
    have hentered : IsFree context.tree
        (placement.enter scope (node.newScope? none)).2.references := by
      rw [enter]
      split <;> exact hfree
    generalize placement.enter scope (node.newScope? none) = entering at *
    obtain ⟨inner, placed⟩ := entering
    have hdeclared : IsFree context.tree
        (node.nameOfDeclaration?.toList.foldl (context.placeDeclared inner)
          placed).references :=
      List.foldlRecOn _ _
        (motive := fun later : Placement =>
          IsFree context.tree later.references)
        hentered fun _ hlater found _ =>
          isFree_placeDeclared hordered hlater found
    have hread : IsFree context.tree
        (node.readName?.toList.foldl (context.placeRead inner isShorthand)
          (node.nameOfDeclaration?.toList.foldl (context.placeDeclared inner)
            placed)).references :=
      List.foldlRecOn _ _
        (motive := fun later : Placement =>
          IsFree context.tree later.references)
        hdeclared fun _ hlater found _ =>
          isFree_placeRead hordered hlater isShorthand found
    exact List.foldlRecOn _ _
      (motive := fun later : Placement => IsFree context.tree later.references)
      hread fun _ hlater part _ => ih part.1 part.2 _ inner hlater

end IsFree

variable {tree : ScopeTree} {imports : List String}

theorem isFree_ofStatements (hordered : tree.IsOrdered) (seen : Nat)
    (statements : List ((Node × StatementKind) × List String)) :
    ∀ references ∈ ofStatements tree imports seen statements,
      IsFree tree references := by
  induction statements generalizing seen with
  | nil =>
      intro references hreferences
      exact absurd hreferences List.not_mem_nil
  | cons statement others ih =>
      obtain ⟨⟨statement, kind⟩, defines⟩ := statement
      have hnone : IsFree tree [] := fun _ hplaced =>
        absurd hplaced List.not_mem_nil
      intro references hreferences
      rw [ofStatements] at hreferences
      split at hreferences
      · rcases List.mem_cons.mp hreferences with rfl | hother
        · exact hnone
        · exact ih seen references hother
      · rcases List.mem_cons.mp hreferences with rfl | hother
        · have hfree : IsFree tree (visitStatement
              ⟨tree, imports, defines⟩ seen statement).references :=
            isFree_visit hordered statement false ScopeTree.root hnone
          exact hfree
        · exact ih _ references hother

/-- The walk that keeps the scopes finds the references of each statement. -/
theorem map_ofStatements
    {statements : List ((Node × StatementKind) × List String)}
    {usages : List Usage}
    (huse : Analysis.useAll tree imports statements = .ok usages) :
    usages.map (·.references) =
      (ofStatements tree imports 0 statements).map
        (·.map (·.reference)) := by
  rw [Analysis.useAll] at huse
  obtain ⟨⟨seen, reversed⟩, hfold, hresult⟩ :=
    Except.bind_eq_ok_iff.mp huse
  obtain rfl := Except.ok.inj hresult
  generalize hstart : ((0 : Nat), ([] : List Usage)) = start at hfold
  have hall : reversed.reverse.map (·.references) =
      start.2.reverse.map (·.references) ++
        (ofStatements tree imports start.1 statements).map
          (·.map (·.reference)) := by
    clear huse hresult hstart
    induction statements generalizing start with
    | nil =>
        obtain rfl := Except.ok.inj hfold
        simp [ofStatements]
    | cons statement others ih =>
        obtain ⟨⟨statement, kind⟩, defines⟩ := statement
        rw [List.foldlM_cons] at hfold
        obtain ⟨next, hfirst, hrest⟩ := Except.bind_eq_ok_iff.mp hfold
        rw [ih next hrest, ofStatements]
        by_cases himport : kind.isImport = true
        · simp only [himport, if_true, Except.ok.injEq] at hfirst ⊢
          subst hfirst
          simp [Analysis.noUsage]
        · simp only [himport, Bool.false_eq_true, if_false] at hfirst ⊢
          split at hfirst
          · cases hfirst
          · obtain rfl := Except.ok.inj hfirst
            have hmatches : Matches
                (Usage.visitStatement ⟨tree, imports, defines⟩ start.1
                  statement)
                (visitStatement ⟨tree, imports, defines⟩ start.1 statement) :=
              matches_visitStatement start.1 statement
            simp [hmatches.scopesSeen, hmatches.references]
  rw [hall, ← hstart]
  rfl

end Placement

namespace Module

variable {loader : Loader} {path : Path} {module : Module} {id : Nat}
  {statement : Statement}

theorem isOrdered_tree (hfaithful : loader.IsFaithful)
    (hmodule : loader.module path = .ok module) : module.tree.IsOrdered := by
  obtain ⟨program, _, hanalysis⟩ := hfaithful.ofProgram_eq_ok hmodule
  obtain ⟨_, _, _, htree, _⟩ := Analysis.ofProgram_eq_ok hanalysis
  rw [htree]
  exact Declarations.isOrdered_declareAll _

/-- The placed references of a statement are its recorded ones, and no function
or block around one of them binds its name. -/
theorem placedReferences_spec (hfaithful : loader.IsFaithful)
    (hmodule : loader.module path = .ok module)
    (hstatement : module.statements[id]? = some statement) :
    ((module.placedReferences id).map (·.reference)).Perm
        statement.references ∧
      Placement.IsFree module.tree (module.placedReferences id) := by
  have hordered := isOrdered_tree hfaithful hmodule
  obtain ⟨program, hparse, hanalysis⟩ := hfaithful.ofProgram_eq_ok hmodule
  obtain ⟨kinds, usages, hkinds, htree, husages, hstatements, _⟩ :=
    Analysis.ofProgram_eq_ok hanalysis
  have hfound := Placement.map_ofStatements husages
  rw [hstatements, List.getElem?_map, Option.map_eq_some_iff] at hstatement
  obtain ⟨⟨⟨node, kind⟩, defines, usage, layout⟩, hzip, rfl⟩ := hstatement
  simp only [List.getElem?_zip_eq_some] at hzip
  have husage : (usages.map (·.references))[id]? = some usage.references := by
    rw [List.getElem?_map, hzip.2.2.1]
    rfl
  rw [hfound, List.getElem?_map, Option.map_eq_some_iff] at husage
  obtain ⟨placed, hplaced, hreferences⟩ := husage
  have hplacedReferences : module.placedReferences id = placed := by
    unfold placedReferences
    rw [hparse]
    simp only [hkinds]
    rw [← htree]
    simp only [hplaced, Option.getD_some]
  rw [hplacedReferences, hreferences]
  constructor
  · exact (List.mergeSort_perm _ _).symm
  · exact Placement.isFree_ofStatements hordered 0 _ placed
      (List.mem_of_getElem? hplaced)

end Module

end Bundler
