import Bundler.Proofs.Analysis.Lookup
import Bundler.Proofs.Analysis.Placement

/-!
# References are the free names

The second walk only counts the scopes that it enters, and by its count it enters
every node with the scope that the first walk created for the innermost construct
around.  So what it looks up there is what the frames of the node bind, and the
references of a statement are just the names in it that no frame binds.
-/

namespace Bundler

/-- Lists that begin with as many values each are related part by part. -/
theorem forall₂_append {α β : Type} {R : α → β → Prop} {first second : List α}
    {left right : List β} (hlength : first.length = left.length)
    (hboth : List.Forall₂ R (first ++ second) (left ++ right)) :
    List.Forall₂ R first left ∧ List.Forall₂ R second right := by
  have hfirst := List.forall₂_take_append _ _ _ hboth
  have hsecond := List.forall₂_drop_append _ _ _ hboth
  rw [← hlength] at hfirst hsecond
  rw [List.take_left] at hfirst
  rw [List.drop_left] at hsecond
  exact ⟨hfirst, hsecond⟩

theorem Site.free_append (sites others : List Site) :
    free (sites ++ others) = free sites ++ free others := by
  simp [free]

/-- A walk enters each site once. -/
theorem TreeWalk.length_scopes {State Manner : Type}
    (walk : TreeWalk State Manner) (node : Node) (manner : Manner)
    (scope : Nat) (state : State) (ownName : Option String)
    (isShorthand : Bool) (frames : List Frame) :
    (walk.scopes manner scope node state).length =
      (node.sites ownName isShorthand frames).length := by
  induction node using Node.parts_induction
    generalizing manner scope state ownName isShorthand frames with
  | hnode node ih =>
    rw [scopes_eq, Node.sites_eq, List.length_cons, List.length_cons]
    refine congrArg Nat.succ ?_
    generalize (node.frame? ownName).toList ++ frames = around
    have hparts : ∀ parts : List (Role × Node), parts ⊆ node.parts →
        ∀ (inner : Nat) (state : State),
        (walk.scopesOfParts node inner parts state).length =
          (parts.flatMap fun part => part.2.sites node.ownName?
            (node.partIsShorthand part.1) around).length := by
      intro parts hsubset
      induction parts with
      | nil => exact fun _ _ => rfl
      | cons part parts ihParts =>
          intro inner state
          obtain ⟨hpart, hothers⟩ := List.cons_subset.mp hsubset
          rw [scopesOfParts, List.flatMap_cons, List.length_append,
            List.length_append, ih part hpart, ihParts hothers]
    exact hparts node.parts (List.Subset.refl _) _ _

namespace Usage

variable (context : UsageContext)

/-- What the second walk finds at one node. -/
def meet (isShorthand : Bool) (scope : Nat) (node : Node) (usage : Usage) :
    Usage :=
  let usage := node.certainWrites.foldl (context.write scope true) usage
  let usage := node.possibleWrites.foldl (context.write scope false) usage
  let usage :=
    node.nameOfDeclaration?.toList.foldl (context.nameDeclared scope) usage
  node.readName?.toList.foldl (context.read scope isShorthand) usage

/-- The second walk at one node. -/
def walk : TreeWalk Usage Bool where
  enter isShorthand scope node usage :=
    let (inner, entered) := usage.enter scope (node.newScope? none)
    (inner, meet context isShorthand inner node entered)
  manner node role := node.partIsShorthand role

theorem visit_eq_walk (isShorthand : Bool) (scope : Nat) (node : Node)
    (usage : Usage) :
    visit context isShorthand scope node usage =
      (walk context).visit isShorthand scope node usage := by
  induction node using Node.parts_induction
    generalizing isShorthand scope usage with
  | hnode node ih =>
    rw [visit, TreeWalk.visit]
    refine congrArg (fun step => List.foldl step _ _) ?_
    funext usage part
    exact ih part.1 part.2 _ _ usage

/-- A scope found by the second walk tells what the frames of a site do. -/
structure Sees (scope : Nat) (site : Site) : Prop where
  isLocal : ∀ name, context.isLocal scope name = site.isBound name
  isModuleLevel : ∀ found ∈ site.node.nameOfDeclaration?,
    context.isModuleLevel scope found.name = !site.isBound found.name

section Meet

variable {context} {scope : Nat} {usage : Usage}

theorem foldl_write (isCertain : Bool) (written : List Occurrence) :
    (written.foldl (context.write scope isCertain) usage).references =
        usage.references ∧
      (written.foldl (context.write scope isCertain) usage).scopesSeen =
        usage.scopesSeen := by
  refine List.foldlRecOn written _ (motive := fun later : Usage =>
    later.references = usage.references ∧
      later.scopesSeen = usage.scopesSeen) ⟨rfl, rfl⟩ ?_
  intro later hlater found _
  rw [UsageContext.write]
  split
  · exact hlater
  · split <;> exact hlater

theorem foldl_nameDeclared (found : Option Occurrence) :
    (found.toList.foldl (context.nameDeclared scope) usage).references =
        usage.references ++
          (found.toList.filter (context.isModuleLevel scope ·.name)).map
            (fun found => ⟨found.span, found.name, false⟩) ∧
      (found.toList.foldl (context.nameDeclared scope) usage).scopesSeen =
        usage.scopesSeen := by
  cases found with
  | none => exact ⟨(List.append_nil _).symm, rfl⟩
  | some found =>
      simp only [Option.toList_some, List.foldl_cons, List.foldl_nil,
        UsageContext.nameDeclared]
      split
      · rename_i hlevel
        simp [hlevel]
      · rename_i hlevel
        simp [hlevel]

theorem foldl_read (isShorthand : Bool) (found : Option Occurrence) :
    (found.toList.foldl (context.read scope isShorthand) usage).references =
        usage.references ++ ((found.toList.filter (!·.span.isEmpty)).filter
          (!context.isLocal scope ·.name)).map
            (fun found => ⟨found.span, found.name, isShorthand⟩) ∧
      (found.toList.foldl (context.read scope isShorthand) usage).scopesSeen =
        usage.scopesSeen := by
  cases found with
  | none => exact ⟨(List.append_nil _).symm, rfl⟩
  | some found =>
      simp only [Option.toList_some, List.foldl_cons, List.foldl_nil,
        UsageContext.read]
      cases hempty : found.span.isEmpty with
      | true => simp [hempty]
      | false =>
          cases hlocal : context.isLocal scope found.name with
          | true => simp [hempty, hlocal]
          | false => simp [hempty, hlocal]

/-- What is recorded at a node are the free names that stand there. -/
theorem references_meet {node : Node} {isShorthand : Bool}
    {frames : List Frame}
    (hsees : Sees context scope ⟨node, isShorthand, frames⟩) :
    (meet context isShorthand scope node usage).references =
      usage.references ++ Site.free [⟨node, isShorthand, frames⟩] := by
  have hdeclared : (node.nameOfDeclaration?.toList.filter
      (context.isModuleLevel scope ·.name)) =
        node.nameOfDeclaration?.toList.filter fun found =>
          !frames.any (·.names.contains found.name) :=
    List.filter_congr fun found hfound =>
      hsees.isModuleLevel found (Option.mem_toList.mp hfound)
  have hlocal : ∀ name, context.isLocal scope name =
      frames.any (·.names.contains name) := hsees.isLocal
  rw [meet, (foldl_read isShorthand _).1, (foldl_nameDeclared _).1,
    (foldl_write false _).1, (foldl_write true _).1, hdeclared,
    List.append_assoc]
  refine congrArg (usage.references ++ ·) ?_
  -- The name of a function or class expression is bound by itself.
  simp only [Site.free, Site.identifiers, List.flatMap_cons, List.flatMap_nil,
    List.append_nil, List.filter_append, List.map_append, List.filter_map,
    List.map_map, hlocal]
  have hown : ∀ found : Option Occurrence, (found.toList.filter
      ((fun identifier : Identifier => !identifier.isBound) ∘
        fun found : Occurrence => (⟨⟨found.span, found.name, false⟩,
          ⟨[found.name], true⟩ :: frames⟩ : Identifier))) = [] := by
    intro found
    cases found <;> simp [Identifier.isBound]
  rw [hown]
  rfl

theorem scopesSeen_meet (isShorthand : Bool) (node : Node) :
    (meet context isShorthand scope node usage).scopesSeen =
      usage.scopesSeen := by
  rw [meet, (foldl_read isShorthand _).2, (foldl_nameDeclared _).2,
    (foldl_write false _).2, (foldl_write true _).2]

/-- Both walks enter a node with the same scope if they have come by as many
scopes. -/
theorem enter_walks_inStep (context : UsageContext)
    (ownName : Option String) (isShorthand : Bool) (scope : Nat) (node : Node)
    (state : Declarations) (usage : Usage)
    (hsize : state.tree.size = usage.scopesSeen + 1) :
    (Declarations.walk.enter ownName scope node state).1 =
        ((walk context).enter isShorthand scope node usage).1 ∧
      (Declarations.walk.enter ownName scope node state).2.tree.size =
        ((walk context).enter isShorthand scope node
          usage).2.scopesSeen + 1 := by
  obtain ⟨hsame, hentered⟩ := enter_inStep scope node ownName hsize
  refine ⟨hsame, ?_⟩
  have hdeclared : ∀ (inner : Nat) (state : Declarations),
      (node.declarations.foldl (Declarations.declare inner) state).tree.size =
        state.tree.size := fun inner state =>
    List.foldlRecOn node.declarations _
      (motive := fun later : Declarations =>
        later.tree.size = state.tree.size) rfl
      fun _ hlater _ _ => ScopeTree.size_bind.trans hlater
  exact (hdeclared _ _).trans
    (hentered.trans (congrArg (· + 1) (scopesSeen_meet isShorthand node).symm))

end Meet

section Visit

variable {context : UsageContext} {usage : Usage}

/-- What a view shows after the second walk through a tree comes of the sites of
the tree, one after the other. -/
theorem view_visit {β : Type} (view : Usage → β) (next : β → Site → β)
    (hmeet : ∀ {scope : Nat} {site : Site} {usage : Usage},
      Sees context scope site →
      view (meet context site.isShorthand scope site.node usage) =
        next (view usage) site)
    (henter : ∀ (usage : Usage) (seen : Nat),
      view { usage with scopesSeen := seen } = view usage)
    (node : Node) (ownName : Option String) (isShorthand : Bool) (scope : Nat)
    (frames : List Frame)
    (hsees : List.Forall₂ (Sees context)
      ((walk context).scopes isShorthand scope node usage)
      (node.sites ownName isShorthand frames)) :
    view ((walk context).visit isShorthand scope node usage) =
      (node.sites ownName isShorthand frames).foldl next (view usage) := by
  induction node using Node.parts_induction
    generalizing ownName isShorthand scope usage frames with
  | hnode node ih =>
    rw [TreeWalk.scopes_eq, Node.sites_eq] at hsees
    rw [TreeWalk.visit_eq, Node.sites_eq]
    generalize (node.frame? ownName).toList ++ frames = around at *
    obtain ⟨hhere, hwithin⟩ := List.forall₂_cons.mp hsees
    have hfirst : view ((walk context).enter isShorthand scope node usage).2 =
        next (view usage) ⟨node, isShorthand, around⟩ := by
      have hentered :
          view (usage.enter scope (node.newScope? none)).2 = view usage := by
        rw [enter]
        split
        · exact henter _ _
        · rfl
      rw [← hentered]
      exact hmeet hhere
    have hparts : ∀ parts : List (Role × Node), parts ⊆ node.parts →
        ∀ {inner : Nat} {usage : Usage}, List.Forall₂ (Sees context)
          ((walk context).scopesOfParts node inner parts usage)
          (parts.flatMap fun part => part.2.sites node.ownName?
            (node.partIsShorthand part.1) around) →
        view ((walk context).visitParts node inner parts usage) =
          (parts.flatMap fun part => part.2.sites node.ownName?
            (node.partIsShorthand part.1) around).foldl next (view usage) := by
      intro parts hsubset
      induction parts with
      | nil => exact fun _ => rfl
      | cons part parts ihParts =>
          intro inner usage hsees
          obtain ⟨hpart, hothers⟩ := List.cons_subset.mp hsubset
          rw [TreeWalk.scopesOfParts, List.flatMap_cons] at hsees
          obtain ⟨hfirst, hrest⟩ := forall₂_append
            (TreeWalk.length_scopes (walk context) part.2 _ _ _ _ _ _) hsees
          have hnext := ihParts hothers hrest
          rw [TreeWalk.visitParts] at hnext ⊢
          rw [List.foldl_cons, hnext, List.flatMap_cons, List.foldl_append]
          exact congrArg (List.foldl next · _)
            (ih part hpart _ _ inner _ hfirst)
    rw [hparts node.parts (List.Subset.refl _) hwithin, hfirst,
      List.foldl_cons]

theorem references_visit (node : Node) (ownName : Option String)
    (isShorthand : Bool) (scope : Nat) (frames : List Frame)
    (hsees : List.Forall₂ (Sees context)
      ((walk context).scopes isShorthand scope node usage)
      (node.sites ownName isShorthand frames)) :
    ((walk context).visit isShorthand scope node usage).references =
      usage.references ++ Site.free (node.sites ownName isShorthand frames) := by
  rw [view_visit (·.references)
    (fun references site => references ++ Site.free [site]) references_meet
    (fun _ _ => rfl) node ownName isShorthand scope frames hsees]
  generalize node.sites ownName isShorthand frames = sites
  generalize usage.references = references
  clear hsees
  induction sites generalizing references with
  | nil => exact (List.append_nil references).symm
  | cons site sites ih =>
      rw [List.foldl_cons, ih, List.append_assoc, ← Site.free_append,
        List.singleton_append]

end Visit

section Statements

variable (tree : ScopeTree) (imports : List String)

/-- The number of scopes that the second walk has met after some statements. -/
def seenAfter : Nat → List ((Node × StatementKind) × List String) → Nat
  | seen, [] => seen
  | seen, (statement, defines) :: others =>
      if statement.2.isImport then seenAfter seen others
      else seenAfter (visitStatement ⟨tree, imports, defines⟩ seen
        statement.1).scopesSeen others

/-- The scopes that the nodes of some statements are entered with. -/
def scopesFrom :
    Nat → List ((Node × StatementKind) × List String) → List (List Nat)
  | _, [] => []
  | seen, (statement, defines) :: others =>
      if statement.2.isImport then [] :: scopesFrom seen others
      else
        (walk ⟨tree, imports, defines⟩).scopes false ScopeTree.root
            statement.1 ⟨seen, [], [], [], none⟩ ::
          scopesFrom (visitStatement ⟨tree, imports, defines⟩ seen
            statement.1).scopesSeen others

variable {tree imports} {statements : List (Node × StatementKind)}
  {start : ScopeTree} {seen : Nat}

/-- The two walks enter all nodes of some statements alike. -/
theorem scopesFrom_inStep (hsize : start.size = seen + 1) :
    Declarations.scopesFrom start statements =
        scopesFrom tree imports seen
          (statements.zip (Analysis.declareFrom start statements).2) ∧
      (Analysis.declareFrom start statements).1.size =
        seenAfter tree imports seen
          (statements.zip (Analysis.declareFrom start statements).2) + 1 := by
  induction statements generalizing start seen with
  | nil => exact ⟨rfl, hsize⟩
  | cons statement others ih =>
      obtain ⟨statement, kind⟩ := statement
      rw [Declarations.scopesFrom, Analysis.declareFrom, List.zip_cons_cons,
        scopesFrom, seenAfter]
      dsimp only
      cases himport : kind.isImport with
      | true =>
          have hsame : (Analysis.declareOne start (statement, kind)).1 =
              start := by
            simp [Analysis.declareOne, himport]
          rw [hsame]
          obtain ⟨hscopes, hcount⟩ := ih hsize
          exact ⟨congrArg _ hscopes, hcount⟩
      | false =>
          have hstart : (Declarations.mk start []).tree.size =
              (Usage.mk seen [] [] [] none).scopesSeen + 1 := hsize
          obtain ⟨hfirst, hnext⟩ := Declarations.walk.scopes_eq_of_inStep
            (fun (state : Declarations) (usage : Usage) =>
              state.tree.size = usage.scopesSeen + 1)
            (enter_walks_inStep ⟨tree, imports,
              (Analysis.declareOne start (statement, kind)).2⟩)
            statement none false ScopeTree.root hstart
          rw [← Declarations.declareOne_fst himport, ← visit_eq_walk] at hnext
          obtain ⟨hscopes, hcount⟩ := ih hnext
          exact ⟨congrArg₂ _ hfirst hscopes, hcount⟩

end Statements

end Usage

/-- What stands behind a name at a site is found from the scope of the site. -/
theorem Declarations.Stands.sees {context : UsageContext} {scope : Nat}
    {site : Site} (hordered : context.tree.IsOrdered)
    (hstands : Stands context.tree scope site) :
    Usage.Sees context scope site := by
  have hlocal : ∀ name, context.isLocal scope name = site.isBound name := by
    intro name
    rw [UsageContext.isLocal, Bool.eq_iff_iff, ← hordered.bindsAround_iff,
      hstands.frames.bindsAround_iff hordered]
    simp [Site.isBound]
  refine ⟨hlocal, fun found hfound => ?_⟩
  rw [← hlocal, UsageContext.isModuleLevel, UsageContext.isLocal]
  obtain ⟨home, hhome⟩ := Option.isSome_iff_exists.mp
    (hstands.declared found hfound)
  simp [hhome]

namespace Placement

variable {tree : ScopeTree} {imports : List String}

/-- The references of some statements are the free names at their sites. -/
theorem map_ofStatements_free (hordered : tree.IsOrdered) {seen : Nat}
    {statements : List ((Node × StatementKind) × List String)}
    (hstands : List.Forall₂ (List.Forall₂ (Declarations.Stands tree))
      (Usage.scopesFrom tree imports seen statements)
      (statements.map (Site.ofStatement ·.1))) :
    (ofStatements tree imports seen statements).map (·.map (·.reference)) =
      statements.map fun statement =>
        Site.free (Site.ofStatement statement.1) := by
  induction statements generalizing seen with
  | nil => rfl
  | cons statement others ih =>
      obtain ⟨⟨statement, kind⟩, defines⟩ := statement
      rw [Usage.scopesFrom, List.map_cons] at hstands
      rw [ofStatements, List.map_cons]
      dsimp only at hstands ⊢
      cases himport : kind.isImport with
      | true =>
          simp only [himport, if_true, List.map_cons] at hstands ⊢
          rw [ih (List.forall₂_cons.mp hstands).2]
          simp [Site.ofStatement, himport, Site.free]
      | false =>
          simp only [himport, Bool.false_eq_true, if_false, List.map_cons]
            at hstands ⊢
          obtain ⟨hfirst, hrest⟩ := List.forall₂_cons.mp hstands
          have hmatches : Matches
              (Usage.visitStatement ⟨tree, imports, defines⟩ seen statement)
              (visitStatement ⟨tree, imports, defines⟩ seen statement) :=
            matches_visitStatement seen statement
          rw [hmatches.scopesSeen] at hrest
          rw [ih hrest, ← hmatches.references, Usage.visitStatement,
            Usage.visit_eq_walk]
          simp only [Site.ofStatement, himport, Bool.false_eq_true, if_false]
            at hfirst ⊢
          rw [Usage.references_visit statement none false ScopeTree.root []
            (hfirst.imp fun _ _ hstands => hstands.sees hordered)]
          rfl

end Placement

namespace Analysis

variable {path : Path} {source : String} {program : Program}
  {analysis : Analysis}

/-- Both walks through the statements of a module enter every node with the same
scope, one meets as many scopes as the other has created, and looking a name up
from the scope of a node is looking it up in the frames around the node. -/
structure EntersAlike (statements : List (Node × StatementKind))
    (imports : List String) : Prop where
  scopes : Declarations.scopesFrom ScopeTree.initial statements =
    Usage.scopesFrom (declareAll statements).1 imports 0
      (statements.zip (declareAll statements).2)
  count : (declareAll statements).1.size =
    Usage.seenAfter (declareAll statements).1 imports 0
      (statements.zip (declareAll statements).2) + 1
  lookup : ∀ defines, List.Forall₂
    (List.Forall₂ fun scope site => ∀ name,
      UsageContext.isLocal ⟨(declareAll statements).1, imports, defines⟩ scope
        name = site.isBound name)
    (Usage.scopesFrom (declareAll statements).1 imports 0
      (statements.zip (declareAll statements).2))
    (statements.map Site.ofStatement)

theorem stands_declareAll (statements : List (Node × StatementKind)) :
    List.Forall₂ (List.Forall₂
        (Declarations.Stands (declareAll statements).1))
      (Declarations.scopesFrom ScopeTree.initial statements)
      (statements.map Site.ofStatement) := by
  have hordered := Declarations.isOrdered_declareAll statements
  have hroot : ScopeTree.root < ScopeTree.initial.size := Nat.zero_lt_one
  rw [declareAll_eq] at hordered ⊢
  exact Declarations.stands_from hordered hroot (.refl _ _) (.refl _)

theorem entersAlike (statements : List (Node × StatementKind))
    (imports : List String) : EntersAlike statements imports := by
  have hordered := Declarations.isOrdered_declareAll statements
  have hstands := stands_declareAll statements
  have hinStep : Declarations.scopesFrom ScopeTree.initial statements =
        Usage.scopesFrom (declareAll statements).1 imports 0
          (statements.zip (declareAll statements).2) ∧
      (declareAll statements).1.size =
        Usage.seenAfter (declareAll statements).1 imports 0
          (statements.zip (declareAll statements).2) + 1 := by
    have hstart : ScopeTree.initial.size = 0 + 1 := rfl
    simp only [declareAll_eq]
    exact Usage.scopesFrom_inStep hstart
  refine ⟨hinStep.1, hinStep.2, fun defines => ?_⟩
  rw [← hinStep.1]
  refine hstands.imp fun _ _ hscopes => hscopes.imp fun scope site hstands => ?_
  have hsees : Usage.Sees ⟨(declareAll statements).1, imports, defines⟩ scope
      site := hstands.sees hordered
  exact hsees.isLocal

/-- What the second walk records of each statement are the free names at its
sites. -/
theorem map_references_of_useAll {statements : List (Node × StatementKind)}
    {imports : List String} {usages : List Usage}
    (huse : useAll (declareAll statements).1 imports
      (statements.zip (declareAll statements).2) = .ok usages) :
    usages.map (·.references) =
      statements.map fun statement => Site.free (Site.ofStatement statement) := by
  have hlength : (declareAll statements).2.length = statements.length := by
    rw [declareAll_eq, length_declareFrom]
  have hfirst : (statements.zip (declareAll statements).2).map (·.1) =
      statements := List.map_fst_zip (Nat.le_of_eq hlength.symm)
  have hsites : ∀ {α : Type} (f : Node × StatementKind → α),
      (statements.zip (declareAll statements).2).map (f ·.1) =
        statements.map f := by
    intro α f
    conv_rhs => rw [← hfirst, List.map_map]
    rfl
  have hstands := stands_declareAll statements
  rw [(entersAlike statements imports).scopes,
    ← hsites Site.ofStatement] at hstands
  rw [Placement.map_ofStatements huse, Placement.map_ofStatements_free
    (Declarations.isOrdered_declareAll statements) hstands]
  exact hsites fun statement => Site.free (Site.ofStatement statement)

/-- A statement of an analysis stands where it stands in the program. -/
theorem exists_statement_of_ofProgram {kinds : List StatementKind}
    (hanalysis : ofProgram path source program = .ok analysis)
    (hkinds : Interface.ofStatements source.toList program.statements =
      .ok (kinds, analysis.interface))
    {id : Nat} {statement : Statement}
    (hstatement : analysis.statements[id]? = some statement) :
    ∃ found, (program.statements.zip kinds)[id]? = some found ∧
      statement.kind = found.2 ∧ statement.span = found.1.span ∧
      (declareAll (program.statements.zip kinds)).2[id]? =
        some statement.defines ∧
      statement.references.Perm (Site.free (Site.ofStatement found)) := by
  obtain ⟨others, usages, hothers, htree, huse, hstatements, _⟩ :=
    ofProgram_eq_ok hanalysis
  obtain rfl : kinds = others := by
    rw [hkinds] at hothers
    exact (Prod.mk.inj (Except.ok.inj hothers)).1
  generalize program.statements.zip kinds = statements at *
  rw [htree] at huse
  have hreferences := map_references_of_useAll huse
  rw [hstatements, List.getElem?_map, Option.map_eq_some_iff] at hstatement
  obtain ⟨⟨⟨node, kind⟩, defines, usage, layout⟩, hzip, rfl⟩ := hstatement
  simp only [List.getElem?_zip_eq_some] at hzip
  refine ⟨(node, kind), hzip.1, rfl, rfl, hzip.2.1, ?_⟩
  have husage := congrArg (fun found => found[id]?) hreferences
  simp only [List.getElem?_map, hzip.1, hzip.2.2.1, Option.map_some,
    Option.some.injEq] at husage
  rw [← husage]
  exact List.mergeSort_perm _ _

/-- A module in which parameters, a block, a loop, a class and a handler of errors
take names of the top level. -/
def shadowing : String :=
  "let x = 1, y = 2;\nfunction f(x) \x7b var y = x; return () => y; \x7d\n" ++
    "\x7b let x = y; for (let y of x) f(y); \x7d\n" ++
    "try \x7b (class f \x7b g() \x7b return f; \x7d \x7d); \x7d " ++
    "catch (x) \x7b f(x, y); \x7d\n"

end Analysis

end Bundler
