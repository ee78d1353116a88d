import Bundler.Proofs.Analysis.Growth
import Bundler.Proofs.Analysis.Scopes
import Bundler.Proofs.Analysis.Walks

/-!
# What scopes hold

What a name means at a place can be read off the syntax tree alone.  Around the
place there are functions and blocks, and each binds what it takes as parameters
and what is declared within it: a function holds all names declared down to its
inner functions, a block those that are block scoped and not within an inner
block.  A name that none of them binds is one of the module.

The first walk through a node binds names in two of the scopes that were there
before: what is block scoped in the scope that the node stands in, and other names
in the function around it.  They are just the names that are declared in the node
and that no construct within it keeps.  So a scope holds in the end what the
construct that opened it binds as a frame.
-/

namespace Bundler

/-! ### Frames -/

/-- What a construct that opens a scope binds for its parts. -/
structure Frame where
  names : List String
  isBlock : Bool

namespace Node

/-- The names that a construct itself declares, block scoped or not. -/
def ownDeclared (isBlockScoped : Bool) (node : Node) : List String :=
  (node.declarations.filter (·.2 = isBlockScoped)).map (·.1)

/-- Whether a construct keeps names that are declared within it.  Names that are
not block scoped only stop at functions. -/
def keeps (isBlockScoped : Bool) (node : Node) : Bool :=
  (node.newScope? none).any fun new => isBlockScoped || !new.isBlock

/-- The names declared in a construct that belong to what is around it. -/
def declaredWithin (isBlockScoped : Bool) (node : Node) : List String :=
  if node.keeps isBlockScoped then []
  else node.ownDeclared isBlockScoped ++
    node.parts.attach.flatMap fun part =>
      part.1.2.declaredWithin isBlockScoped
termination_by sizeOf node
decreasing_by exact sizeOf_lt_of_mem_parts part.2

/-- The names declared in a construct, down to inner ones that keep them. -/
def contents (isBlockScoped : Bool) (node : Node) : List String :=
  node.ownDeclared isBlockScoped ++
    node.parts.flatMap (·.2.declaredWithin isBlockScoped)

/-- What a construct binds for its parts, if it opens a scope.  `ownName` is the
name that a function expression has within itself. -/
def frame? (ownName : Option String) (node : Node) : Option Frame :=
  (node.newScope? ownName).map fun new =>
    ⟨new.parameters ++ node.contents true ++
      if new.isBlock then [] else node.contents false, new.isBlock⟩

end Node

/-- A node of a tree with what is around it: the functions and blocks that the
node stands in or opens, from the innermost one on outwards. -/
structure Site where
  node : Node
  isShorthand : Bool
  frames : List Frame

/-- A name where it stands, with the functions and blocks that it is looked up
in. -/
structure Identifier where
  reference : Reference
  frames : List Frame

namespace Identifier

/-- Whether a function or block around a name binds it. -/
def isBound (identifier : Identifier) : Bool :=
  identifier.frames.any (·.names.contains identifier.reference.name)

end Identifier

namespace Node

/-- The sites of a tree, each before those of its parts. -/
def sites (ownName : Option String) (isShorthand : Bool) (frames : List Frame)
    (node : Node) : List Site :=
  let inner := (node.frame? ownName).toList ++ frames
  ⟨node, isShorthand, inner⟩ ::
    node.parts.attach.flatMap fun part =>
      part.1.2.sites node.ownName? (node.partIsShorthand part.1.1) inner
termination_by sizeOf node
decreasing_by exact sizeOf_lt_of_mem_parts part.2

/-- The name of a function or class expression. -/
def nameOfExpression? (node : Node) : Option Occurrence :=
  match node.shape with
  | .funcExpr name _ | .classExpr name _ _ => name.bind declaredName?
  | _ => none

end Node

namespace Site

variable (site : Site)

/-- Whether a function or block around a site binds a name. -/
def isBound (name : String) : Bool :=
  site.frames.any (·.names.contains name)

/-- The names that stand at a site and have a text, but for the names of declared
functions and classes, which need none.  The name of a function or class
expression is one of its own, which nothing outside sees. -/
def identifiers : List Identifier :=
  (site.node.nameOfExpression?.toList.map fun found =>
      ⟨⟨found.span, found.name, false⟩, ⟨[found.name], true⟩ :: site.frames⟩) ++
    (site.node.nameOfDeclaration?.toList.map fun found =>
      ⟨⟨found.span, found.name, false⟩, site.frames⟩) ++
    ((site.node.readName?.toList.filter (!·.span.isEmpty)).map fun found =>
      ⟨⟨found.span, found.name, site.isShorthand⟩, site.frames⟩)

/-- The names at sites whose lookup ends at the top level of the module, or finds
nothing. -/
def free (sites : List Site) : List Reference :=
  ((sites.flatMap identifiers).filter (!·.isBound)).map (·.reference)

/-- The sites of a top-level statement.  Imports are not walked through. -/
def ofStatement (statement : Node × StatementKind) : List Site :=
  if statement.2.isImport then []
  else statement.1.sites none false []

end Site

section Unfolding

variable {node : Node} {isBlockScoped : Bool} {name : String}

theorem Node.mem_ownDeclared :
    name ∈ node.ownDeclared isBlockScoped ↔
      (name, isBlockScoped) ∈ node.declarations := by
  simp [ownDeclared]

theorem Node.declaredWithin_eq (isBlockScoped : Bool) (node : Node) :
    node.declaredWithin isBlockScoped =
      if node.keeps isBlockScoped then [] else node.contents isBlockScoped := by
  rw [declaredWithin, contents]
  conv =>
    rhs
    rw [← List.attach_map_subtype_val node.parts, List.flatMap_map]

theorem Node.sites_eq (ownName : Option String) (isShorthand : Bool)
    (frames : List Frame) (node : Node) :
    node.sites ownName isShorthand frames =
      ⟨node, isShorthand, (node.frame? ownName).toList ++ frames⟩ ::
        node.parts.flatMap fun part => part.2.sites node.ownName?
          (node.partIsShorthand part.1)
          ((node.frame? ownName).toList ++ frames) := by
  rw [sites]
  conv =>
    rhs
    rw [← List.attach_map_subtype_val node.parts, List.flatMap_map]

/-- Whether a construct opens a block or a function does not depend on its own
name. -/
theorem Node.map_isBlock_newScope? (ownName : Option String) (node : Node) :
    (node.newScope? ownName).map (·.isBlock) =
      (node.newScope? none).map (·.isBlock) := by
  unfold newScope?
  split <;> rfl

end Unfolding

/-! ### Scopes as frames -/

namespace ScopeTree

variable {tree later first second third : ScopeTree} {id : Nat}
  {name : String}

/-- The scope that a name is bound in which is declared in another one. -/
def home (tree : ScopeTree) (id : Nat) (isBlockScoped : Bool) : Nat :=
  if isBlockScoped then id else tree.functionScope id

theorem functionScope_le (id : Nat) : tree.functionScope id ≤ id := by
  induction id using Nat.strongRecOn with
  | ind id ih =>
    rw [functionScope]
    split
    · exact Nat.le_refl id
    · split
      · split
        · exact Nat.le_refl id
        · split
          · rename_i parent _ hless
            exact Nat.le_trans (ih parent hless) (Nat.le_of_lt hless)
          · exact Nat.le_refl id
      · exact Nat.le_refl id

theorem home_le (id : Nat) (isBlockScoped : Bool) :
    tree.home id isBlockScoped ≤ id := by
  cases isBlockScoped with
  | true => exact Nat.le_refl id
  | false => exact functionScope_le id

/-- The passage from a tree to one in which its scopes stand as they did, whatever
names they hold. -/
structure Stays (tree later : ScopeTree) : Prop where
  scope : ∀ {id : Nat} {scope : Scope}, tree.get? id = some scope →
    ∃ other, later.get? id = some other ∧ other.parent = scope.parent ∧
      other.isBlock = scope.isBlock

namespace Stays

theorem refl (tree : ScopeTree) : Stays tree tree :=
  ⟨fun hscope => ⟨_, hscope, rfl, rfl⟩⟩

theorem trans (hfirst : Stays first second) (hsecond : Stays second third) :
    Stays first third := by
  constructor
  intro id scope hscope
  obtain ⟨between, hbetween, hparent, hblock⟩ := hfirst.scope hscope
  obtain ⟨other, hother, hsame, hkind⟩ := hsecond.scope hbetween
  exact ⟨other, hother, hsame.trans hparent, hkind.trans hblock⟩

theorem create (tree : ScopeTree) (parent : Nat) (parameters : List String)
    (isBlock : Bool) : Stays tree (tree.create parent parameters isBlock).2 := by
  constructor
  intro id scope hscope
  exact ⟨scope, get?_create_of_get? hscope, rfl, rfl⟩

theorem bind (tree : ScopeTree) (home : Nat) (name : String) :
    Stays tree (tree.bind home name) := by
  constructor
  intro id scope hscope
  rw [get?_bind, hscope]
  refine ⟨_, rfl, ?_⟩
  split <;> exact ⟨rfl, rfl⟩

theorem functionScope (hstays : Stays tree later) (hid : id < tree.size) :
    later.functionScope id = tree.functionScope id := by
  induction id using Nat.strongRecOn with
  | ind id ih =>
    obtain ⟨scope, hscope⟩ := exists_get? hid
    obtain ⟨other, hother, hparent, hblock⟩ := hstays.scope hscope
    rw [ScopeTree.functionScope, ScopeTree.functionScope, hscope, hother]
    dsimp only
    rw [hparent, hblock]
    cases scope.parent with
    | none => rfl
    | some parent =>
        by_cases hless : parent < id
        · simp only [hless, if_true, ih parent hless (Nat.lt_trans hless hid)]
        · simp only [hless, if_false]

theorem home (hstays : Stays tree later) (hid : id < tree.size)
    (isBlockScoped : Bool) :
    later.home id isBlockScoped = tree.home id isBlockScoped := by
  cases isBlockScoped with
  | true => rfl
  | false => exact hstays.functionScope hid

theorem size_le (hstays : Stays tree later) : tree.size ≤ later.size := by
  refine Nat.le_of_not_lt fun hless => ?_
  obtain ⟨scope, hscope⟩ := exists_get? hless
  obtain ⟨other, hother, _⟩ := hstays.scope hscope
  exact Nat.lt_irrefl _ (lt_size_of_get? hother)

end Stays

section Create

variable {parent : Nat} {parameters : List String} {isBlock : Bool}

theorem get?_create_size :
    (tree.create parent parameters isBlock).2.get? tree.size =
      some ⟨some parent, parameters.foldl pushNew [], isBlock,
        tree.depth parent + 1⟩ := by
  rw [get?_create, if_pos rfl]

theorem contains_create_size :
    (tree.create parent parameters isBlock).2.contains tree.size name = true ↔
      name ∈ parameters := by
  have hpushed : ∀ found : List String,
      name ∈ parameters.foldl pushNew found ↔
        name ∈ found ∨ name ∈ parameters := by
    induction parameters with
    | nil => simp
    | cons parameter parameters ih =>
        intro found
        rw [List.foldl_cons, ih, mem_pushNew, List.mem_cons, or_assoc]
  rw [contains, get?_create_size]
  simp [hpushed]

/-- The function around a new block is the one around its parent. -/
theorem home_create_size (hparent : parent < tree.size) :
    (tree.create parent parameters isBlock).2.home tree.size false =
      if isBlock then tree.home parent false else tree.size := by
  have hstays := Stays.create tree parent parameters isBlock
  rw [home, if_neg Bool.false_ne_true, functionScope, get?_create_size]
  cases isBlock with
  | true =>
      simp only [if_true, hparent]
      exact hstays.home hparent false
  | false => rfl

end Create

end ScopeTree

namespace Declarations

/-- The first walk at one node. -/
def walk : TreeWalk Declarations (Option String) where
  enter ownName scope node state :=
    let (inner, entered) := state.enter scope (node.newScope? ownName)
    (inner, node.declarations.foldl (declare inner) entered)
  manner node _ := node.ownName?

theorem visit_eq_walk (ownName : Option String) (scope : Nat) (node : Node)
    (state : Declarations) :
    visit ownName scope node state = walk.visit ownName scope node state := by
  induction node using Node.parts_induction
    generalizing ownName scope state with
  | hnode node ih =>
    rw [visit, TreeWalk.visit]
    refine congrArg (fun step => List.foldl step _ _) ?_
    funext state part
    exact ih part.1 part.2 node.ownName? _ state

variable {state : Declarations} {scope : Nat}

theorem stays_enter (scope : Nat) (state : Declarations)
    (new : Option NewScope) :
    state.tree.Stays (state.enter scope new).2.tree := by
  cases new with
  | none => exact .refl state.tree
  | some new => exact .create state.tree scope new.parameters new.isBlock

theorem stays_declare (scope : Nat) (state : Declarations)
    (declared : String × Bool) :
    state.tree.Stays (declare scope state declared).tree :=
  .bind state.tree _ declared.1

theorem stays_declareAll (scope : Nat) (names : List (String × Bool))
    (state : Declarations) :
    state.tree.Stays (names.foldl (declare scope) state).tree :=
  List.foldlRecOn names _ (motive := fun later : Declarations =>
    state.tree.Stays later.tree) (.refl state.tree)
    fun later hlater declared _ => hlater.trans (stays_declare scope later declared)

theorem stays_visit (ownName : Option String) (scope : Nat) (node : Node)
    (state : Declarations) :
    state.tree.Stays (walk.visit ownName scope node state).tree := by
  rw [← visit_eq_walk]
  apply visit_induction (fun later => state.tree.Stays later.tree)
    (fun _ => True) (fun _ _ _ _ => trivial) _ _ trivial ownName scope
    (.refl state.tree)
  · exact fun scope later new hlater =>
      hlater.trans (stays_enter scope later new)
  · exact fun _ _ declared _ scope later hlater =>
      hlater.trans (stays_declare scope later declared)

theorem stays_visitParts (node : Node) (scope : Nat)
    (parts : List (Role × Node)) (state : Declarations) :
    state.tree.Stays (walk.visitParts node scope parts state).tree :=
  List.foldlRecOn parts _ (motive := fun later : Declarations =>
    state.tree.Stays later.tree) (.refl state.tree)
    fun later hlater part _ => hlater.trans (stays_visit _ scope part.2 later)

/-- What is recorded of the declarations of a name in one of the scopes that are
there: it is not touched by entering others, and a declaration of the name for
this scope is all that makes it true. -/
structure Records (Holds : Declarations → Prop) (target : Nat)
    (name : String) : Prop where
  enter : ∀ {scope : Nat} {state : Declarations} {new : Option NewScope},
    target < state.tree.size →
    (Holds (state.enter scope new).2 ↔ Holds state)
  declare : ∀ {scope : Nat} {state : Declarations} {declared : String × Bool},
    target < state.tree.size →
    (Holds (declare scope state declared) ↔
      Holds state ∨ state.tree.home scope declared.2 = target ∧
        name = declared.1)

namespace Records

variable {Holds : Declarations → Prop} {target : Nat} {name : String}

/-- The names that a scope holds are recorded. -/
theorem contains (id : Nat) (name : String) :
    Records (fun state => state.tree.contains id name = true) id name where
  enter {scope state new} hid := by
    cases new with
    | none => exact Iff.rfl
    | some new =>
        change (state.tree.create scope new.parameters
          new.isBlock).2.contains id name = true ↔ _
        rw [ScopeTree.contains_create hid]
  declare {scope state declared} hid := by
    refine ScopeTree.contains_bind.trans (or_congr_right ?_)
    exact ⟨fun ⟨hhome, hname, _⟩ => ⟨hhome, hname⟩,
      fun ⟨hhome, hname⟩ => ⟨hhome, hname, ScopeTree.exists_get? hid⟩⟩

/-- So are the definitions of a statement, which are the names that it declares
for the top level. -/
theorem defines (name : String) :
    Records (fun state => name ∈ state.defines) ScopeTree.root name where
  enter {scope state new} _ := by cases new <;> exact Iff.rfl
  declare {scope state declared} _ := by
    change name ∈ (if state.tree.home scope declared.2 = ScopeTree.root then
      pushNew state.defines declared.1 else state.defines) ↔ _
    split
    · rename_i hhome
      simp [hhome]
    · rename_i hhome
      simp [hhome]

variable (hrecords : Records Holds target name)
include hrecords

theorem declareAll (htarget : target < state.tree.size)
    (hscope : scope < state.tree.size) (names : List (String × Bool)) :
    Holds (names.foldl (Declarations.declare scope) state) ↔
      Holds state ∨ ∃ isBlockScoped,
        state.tree.home scope isBlockScoped = target ∧
          (name, isBlockScoped) ∈ names := by
  induction names generalizing state with
  | nil => simp
  | cons declared names ih =>
      obtain ⟨found, flag⟩ := declared
      have hstays := stays_declare scope state (found, flag)
      rw [List.foldl_cons, ih (Nat.lt_of_lt_of_le htarget hstays.size_le)
        (Nat.lt_of_lt_of_le hscope hstays.size_le), hrecords.declare htarget,
        or_assoc]
      refine or_congr_right ?_
      simp only [hstays.home hscope, List.mem_cons, Prod.mk.injEq]
      constructor
      · rintro (⟨hhome, rfl⟩ | ⟨other, hhome, hmem⟩)
        · exact ⟨flag, hhome, .inl ⟨rfl, rfl⟩⟩
        · exact ⟨other, hhome, .inr hmem⟩
      · rintro ⟨other, hhome, ⟨rfl, rfl⟩ | hmem⟩
        · exact .inl ⟨hhome, rfl⟩
        · exact .inr ⟨other, hhome, hmem⟩

/-- What comes of walking through a node within a scope. -/
def OfNode (Holds : Declarations → Prop) (target : Nat) (name : String)
    (node : Node) : Prop :=
  ∀ {ownName : Option String} {scope : Nat} {state : Declarations},
    target < state.tree.size → scope < state.tree.size →
    (Holds (walk.visit ownName scope node state) ↔
      Holds state ∨ ∃ isBlockScoped,
        state.tree.home scope isBlockScoped = target ∧
          name ∈ node.declaredWithin isBlockScoped)

omit hrecords in
theorem ofParts {whole : Node} {parts : List (Role × Node)}
    (hparts : ∀ part ∈ parts, OfNode Holds target name part.2)
    (htarget : target < state.tree.size) (hscope : scope < state.tree.size) :
    Holds (walk.visitParts whole scope parts state) ↔
      Holds state ∨ ∃ isBlockScoped,
        state.tree.home scope isBlockScoped = target ∧
          name ∈ parts.flatMap (·.2.declaredWithin isBlockScoped) := by
  induction parts generalizing state with
  | nil => simp [TreeWalk.visitParts]
  | cons part parts ih =>
      obtain ⟨hfirst, hothers⟩ := List.forall_mem_cons.mp hparts
      have hstays := stays_visit (walk.manner whole part.1) scope part.2 state
      have hrest := ih hothers (Nat.lt_of_lt_of_le htarget hstays.size_le)
        (Nat.lt_of_lt_of_le hscope hstays.size_le)
      rw [TreeWalk.visitParts] at hrest ⊢
      rw [List.foldl_cons, hrest, hfirst htarget hscope, or_assoc]
      refine or_congr_right ?_
      simp only [hstays.home hscope, List.flatMap_cons, List.mem_append]
      rw [← exists_or]
      exact exists_congr fun _ => and_or_left.symm

/-- What comes of declaring the names of a node and walking through its parts. -/
theorem ofContents {node : Node}
    (hparts : ∀ part ∈ node.parts, OfNode Holds target name part.2)
    (htarget : target < state.tree.size) (hscope : scope < state.tree.size) :
    Holds (walk.visitParts node scope node.parts
        (node.declarations.foldl (Declarations.declare scope) state)) ↔
      Holds state ∨ ∃ isBlockScoped,
        state.tree.home scope isBlockScoped = target ∧
          name ∈ node.contents isBlockScoped := by
  have hstays := stays_declareAll scope node.declarations state
  rw [ofParts hparts (Nat.lt_of_lt_of_le htarget hstays.size_le)
    (Nat.lt_of_lt_of_le hscope hstays.size_le),
    hrecords.declareAll htarget hscope, or_assoc]
  refine or_congr_right ?_
  simp only [hstays.home hscope, Node.contents, List.mem_append,
    Node.mem_ownDeclared]
  rw [← exists_or]
  exact exists_congr fun _ => and_or_left.symm

/-- A name comes to a scope from the nodes that are walked through in it, or in a
block within it if the name is not block scoped, unless it is kept there. -/
theorem ofNode (node : Node) : OfNode Holds target name node := by
  induction node using Node.parts_induction with
  | hnode node ih =>
    intro ownName scope state htarget hscope
    have hkind := Node.map_isBlock_newScope? ownName node
    simp only [TreeWalk.visit_eq, walk, Node.declaredWithin_eq, Node.keeps]
    cases hnew : node.newScope? ownName with
    | none =>
        rw [hnew, Option.map_none, eq_comm, Option.map_eq_none_iff] at hkind
        simp only [hkind, Option.any_none, Bool.false_eq_true, if_false]
        exact hrecords.ofContents ih htarget hscope
    | some new =>
        rw [hnew, Option.map_some, eq_comm, Option.map_eq_some_iff] at hkind
        obtain ⟨plain, hplain, hsame⟩ := hkind
        have hstays := stays_enter scope state (some new)
        have hinner : (state.enter scope (some new)).1 <
            (state.enter scope (some new)).2.tree.size :=
          (adds_enter hscope (some new)).2
        refine (hrecords.ofContents ih (Nat.lt_of_lt_of_le htarget
          hstays.size_le) hinner).trans ?_
        rw [hrecords.enter htarget]
        refine or_congr_right ?_
        -- Only what a new block does not keep comes to a scope around it.
        have hblock : (state.enter scope (some new)).2.tree.home
            (state.enter scope (some new)).1 false =
              if new.isBlock then state.tree.home scope false
              else state.tree.size :=
          ScopeTree.home_create_size hscope
        have hown : (state.enter scope (some new)).2.tree.home
            (state.enter scope (some new)).1 true = state.tree.size := rfl
        simp only [Bool.exists_bool, hblock, hown, hplain, hsame,
          Option.any_some, Bool.false_or, Bool.true_or, if_true,
          List.not_mem_nil, and_false, or_false]
        cases new.isBlock with
        | true => simp [Nat.ne_of_gt htarget]
        | false => simp [Nat.ne_of_gt htarget]

end Records

end Declarations

end Bundler
