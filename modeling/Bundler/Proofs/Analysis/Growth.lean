import Bundler.Proofs.Analysis.Scopes

/-!
# Growth of scope trees

The first walk through a module only adds scopes and names.  Names come to the
top level as definitions of statements, and a name that is not declared for the
top level is bound around the place where it is declared, also in every later
tree.
-/

namespace Bundler

namespace ScopeTree

variable {tree later first second third : ScopeTree} {id outer : Nat}
  {name : String}

/-- The passage from a tree to one with more scopes and names. -/
structure Extends (tree later : ScopeTree) : Prop where
  scope : ∀ {id : Nat} {scope : Scope}, tree.get? id = some scope →
    ∃ other, later.get? id = some other ∧ other.parent = scope.parent ∧
      ∀ name ∈ scope.names, name ∈ other.names

namespace Extends

theorem refl (tree : ScopeTree) : Extends tree tree :=
  ⟨fun hscope => ⟨_, hscope, rfl, fun _ hname => hname⟩⟩

theorem trans (hfirst : Extends first second)
    (hsecond : Extends second third) : Extends first third := by
  constructor
  intro id scope hscope
  obtain ⟨between, hbetween, hparent, hnames⟩ := hfirst.scope hscope
  obtain ⟨other, hother, hsame, hmore⟩ := hsecond.scope hbetween
  exact ⟨other, hother, hsame.trans hparent,
    fun name hname => hmore name (hnames name hname)⟩

theorem create (tree : ScopeTree) (parent : Nat) (parameters : List String)
    (isBlock : Bool) :
    Extends tree (tree.create parent parameters isBlock).2 := by
  constructor
  intro id scope hscope
  exact ⟨scope, get?_create_of_get? hscope, rfl, fun _ hname => hname⟩

theorem bind (tree : ScopeTree) (home : Nat) (name : String) :
    Extends tree (tree.bind home name) := by
  constructor
  intro id scope hscope
  rw [get?_bind, hscope]
  refine ⟨_, rfl, ?_⟩
  split
  · exact ⟨rfl, fun _ hname => mem_pushNew.mpr (.inl hname)⟩
  · exact ⟨rfl, fun _ hname => hname⟩

theorem encloses (hextends : Extends tree later)
    (hencloses : tree.Encloses outer id) : later.Encloses outer id := by
  induction hencloses with
  | refl hscope =>
      obtain ⟨other, hother, _⟩ := hextends.scope hscope
      exact .refl hother
  | parent hscope hparent _ ih =>
      obtain ⟨other, hother, hsame, _⟩ := hextends.scope hscope
      exact .parent hother (hsame.trans hparent) ih

/-- Bindings around a place stay. -/
theorem bindsAround (hextends : Extends tree later)
    (hbinds : tree.BindsAround id name) : later.BindsAround id name := by
  obtain ⟨outer, hencloses, hnested, hcontains⟩ := hbinds
  obtain ⟨scope, hscope, hname⟩ := contains_eq_true_iff.mp hcontains
  obtain ⟨other, hother, _, hnames⟩ := hextends.scope hscope
  exact ⟨outer, hextends.encloses hencloses, hnested,
    contains_eq_true_iff.mpr ⟨other, hother, hnames name hname⟩⟩

end Extends

theorem exists_get? (hid : id < tree.size) :
    ∃ scope, tree.get? id = some scope :=
  ⟨_, Array.getElem?_eq_getElem hid⟩

/-- The function around a scope is around it. -/
theorem encloses_functionScope (hid : id < tree.size) :
    tree.Encloses (tree.functionScope id) id := by
  induction id using Nat.strongRecOn with
  | ind id ih =>
    obtain ⟨scope, hscope⟩ := exists_get? hid
    have hself : tree.Encloses id id := .refl hscope
    rw [functionScope, hscope]
    dsimp only
    split
    · split
      · exact hself
      · rename_i parent hparent
        split
        · rename_i hless
          exact .parent hscope hparent (ih parent hless (Nat.lt_trans hless hid))
        · exact hself
    · exact hself

theorem Encloses.exists_get? (hencloses : tree.Encloses outer id) :
    ∃ scope, tree.get? outer = some scope := by
  induction hencloses with
  | refl hscope => exact ⟨_, hscope⟩
  | parent _ _ _ ih => exact ih

theorem contains_create {parent : Nat} {parameters : List String}
    {isBlock : Bool} (hid : id < tree.size) :
    (tree.create parent parameters isBlock).2.contains id name =
      tree.contains id name := by
  rw [contains, get?_create, if_neg (Nat.ne_of_lt hid), contains]

theorem contains_bind {home : Nat} {bound : String} :
    (tree.bind home bound).contains id name = true ↔
      tree.contains id name = true ∨
        home = id ∧ name = bound ∧ ∃ scope, tree.get? id = some scope := by
  rw [contains, get?_bind, contains]
  cases tree.get? id with
  | none => simp
  | some scope => by_cases hhome : home = id <;> simp [hhome]

/-- A name that is declared within a function or block is bound around the place
where it is declared. -/
theorem bindsAround_declare {isBlockScoped : Bool} (hid : id < tree.size)
    (hnested : (tree.declare id name isBlockScoped).1 ≠ root) :
    (tree.declare id name isBlockScoped).2.BindsAround id name := by
  obtain ⟨self, hself⟩ := exists_get? hid
  have hencloses : tree.Encloses (tree.declare id name isBlockScoped).1 id := by
    cases isBlockScoped with
    | true => exact .refl hself
    | false => exact encloses_functionScope hid
  exact ⟨_, (Extends.bind tree _ name).encloses hencloses, hnested,
    contains_bind.mpr (.inr ⟨rfl, rfl, hencloses.exists_get?⟩)⟩

end ScopeTree

namespace Declarations

variable {first second third : Declarations}

/-- The passage from a state to a later one of the same statement, to the top
level of which names come as definitions. -/
structure Grows (before after : Declarations) : Prop where
  tree : before.tree.Extends after.tree
  defines : ∀ name ∈ before.defines, name ∈ after.defines
  top : ScopeTree.root < before.tree.size → ∀ name,
    after.tree.contains ScopeTree.root name = true →
    before.tree.contains ScopeTree.root name = true ∨ name ∈ after.defines

namespace Grows

theorem refl (state : Declarations) : Grows state state :=
  ⟨.refl state.tree, fun _ => id, fun _ _ => .inl⟩

theorem trans (hfirst : Grows first second) (hsecond : Grows second third) :
    Grows first third where
  tree := hfirst.tree.trans hsecond.tree
  defines name hname := hsecond.defines name (hfirst.defines name hname)
  top hroot name hname := by
    obtain ⟨scope, hscope⟩ := ScopeTree.exists_get? hroot
    obtain ⟨other, hother, _⟩ := hfirst.tree.scope hscope
    cases hsecond.top (ScopeTree.lt_size_of_get? hother) name hname with
    | inl hbetween =>
        exact (hfirst.top hroot name hbetween).imp_right (hsecond.defines name)
    | inr hnew => exact .inr hnew

end Grows

theorem grows_enter (scope : Nat) (state : Declarations)
    (new : Option NewScope) : Grows state (state.enter scope new).2 := by
  cases new with
  | none => exact .refl state
  | some new =>
      refine ⟨.create state.tree scope new.parameters new.isBlock,
        fun _ => id, fun hroot name hname => .inl ?_⟩
      rw [enter] at hname
      rwa [← ScopeTree.contains_create hroot]

theorem grows_declare (scope : Nat) (state : Declarations)
    (declared : String × Bool) : Grows state (declare scope state declared) := by
  refine ⟨.bind state.tree _ declared.1, ?_, ?_⟩
  · intro name hname
    rw [declare]
    dsimp only
    split
    · exact mem_pushNew.mpr (.inl hname)
    · exact hname
  · intro _ name hname
    apply (ScopeTree.contains_bind.mp hname).imp_right
    rintro ⟨hhome, rfl, _⟩
    have hroot : (state.tree.declare scope declared.1 declared.2).1 =
        ScopeTree.root := hhome
    simp only [declare, hroot, if_true]
    exact mem_pushNew.mpr (.inr rfl)

/-- What entering scopes keeps, and declaring the names of a node, is kept by a
walk through the node and its parts. -/
theorem visit_induction (Holds : Declarations → Prop) (Good : Node → Prop)
    (hparts : ∀ node, Good node → ∀ part ∈ node.parts, Good part.2)
    (henter : ∀ scope state new, Holds state →
      Holds (state.enter scope new).2)
    (hdeclare : ∀ node, Good node → ∀ declared ∈ node.declarations,
      ∀ scope state, Holds state → Holds (declare scope state declared))
    {node : Node} (hgood : Good node) (ownName : Option String) (scope : Nat)
    {state : Declarations} (hstate : Holds state) :
    Holds (visit ownName scope node state) := by
  induction node using Node.parts_induction
    generalizing ownName scope state with
  | hnode node ih =>
    rw [visit]
    have hentered : Holds (state.enter scope (node.newScope? ownName)).2 :=
      henter scope state _ hstate
    generalize state.enter scope (node.newScope? ownName) = entering at *
    obtain ⟨inner, entered⟩ := entering
    have hdeclared : Holds
        (node.declarations.foldl (declare inner) entered) :=
      List.foldlRecOn _ _ hentered fun later hlater declared hmem =>
        hdeclare node hgood declared hmem inner later hlater
    exact List.foldlRecOn _ _ hdeclared fun later hlater part _ =>
      ih part.1 part.2 (hparts node hgood part.1 part.2) node.ownName? inner
        hlater

theorem grows_visit (node : Node) (ownName : Option String) (scope : Nat)
    (state : Declarations) : Grows state (visit ownName scope node state) := by
  apply visit_induction (Grows state) (fun _ => True) (fun _ _ _ _ => trivial)
    _ _ trivial ownName scope (.refl state)
  · exact fun scope later new hlater => hlater.trans (grows_enter scope later new)
  · exact fun _ _ declared _ scope later hlater =>
      hlater.trans (grows_declare scope later declared)

end Declarations

namespace Analysis

/-- The scopes after a top-level statement, and the names that it defines. -/
def declareOne (tree : ScopeTree) :
    Node × StatementKind → ScopeTree × List String
  | (statement, kind) =>
      if kind.isImport then (tree, [])
      else
        let found := Declarations.visitStatement tree statement
        (found.tree, if kind.isDefaultValue then
          pushNew found.defines defaultSlot else found.defines)

/-- What the first walk has found after one more statement. -/
def declareNext : ScopeTree × List (List String) →
    Node × StatementKind → ScopeTree × List (List String)
  | (tree, defines), (statement, kind) =>
      if kind.isImport then (tree, [] :: defines)
      else
        let found := Declarations.visitStatement tree statement
        let own :=
          if kind.isDefaultValue then pushNew found.defines defaultSlot
          else found.defines
        (found.tree, own :: defines)

/-- The first walk through some statements of a module. -/
def declareFrom (tree : ScopeTree) :
    List (Node × StatementKind) → ScopeTree × List (List String)
  | [] => (tree, [])
  | statement :: others =>
      let first := declareOne tree statement
      let rest := declareFrom first.1 others
      (rest.1, first.2 :: rest.2)

theorem declareAll_eq (statements : List (Node × StatementKind)) :
    declareAll statements = declareFrom ScopeTree.initial statements := by
  have hfrom : ∀ (tree : ScopeTree) (reversed : List (List String)),
      statements.foldl declareNext (tree, reversed) =
        ((declareFrom tree statements).1,
          (declareFrom tree statements).2.reverse ++ reversed) := by
    induction statements with
    | nil => exact fun _ _ => rfl
    | cons statement others ih =>
        intro tree reversed
        obtain ⟨statement, kind⟩ := statement
        rw [List.foldl_cons, declareFrom, List.reverse_cons]
        cases himport : kind.isImport with
        | true => simp [declareNext, declareOne, himport, ih]
        | false => simp [declareNext, declareOne, himport, ih]
  have hall : declareAll statements =
      ((statements.foldl declareNext (ScopeTree.initial, [])).1,
        (statements.foldl declareNext (ScopeTree.initial, [])).2.reverse) := rfl
  rw [hall, hfrom]
  simp

variable {tree : ScopeTree} {statements : List (Node × StatementKind)}

theorem length_declareFrom (tree : ScopeTree)
    (statements : List (Node × StatementKind)) :
    (declareFrom tree statements).2.length = statements.length := by
  induction statements generalizing tree with
  | nil => rfl
  | cons statement others ih => simp [declareFrom, ih]

theorem size_le_declareOne (hroot : ScopeTree.root < tree.size)
    (statement : Node × StatementKind) :
    tree.size ≤ (declareOne tree statement).1.size := by
  rw [declareOne]
  split
  · exact Nat.le_refl _
  · have hstart : ScopeTree.root < (Declarations.mk tree []).tree.size := hroot
    exact (Declarations.adds_visit statement.1 none hstart).size

theorem mem_declareOne {statement : Node} {kind : StatementKind}
    {name : String} (himport : kind.isImport = false)
    (hname : name ∈ (Declarations.visitStatement tree statement).defines) :
    name ∈ (declareOne tree (statement, kind)).2 := by
  simp only [declareOne, himport, Bool.false_eq_true, if_false]
  split
  · exact mem_pushNew.mpr (.inl hname)
  · exact hname

/-- Scopes and names are only added, and what comes to the top level is
defined. -/
theorem declareOne_spec (tree : ScopeTree)
    (statement : Node × StatementKind) :
    tree.Extends (declareOne tree statement).1 ∧
      (ScopeTree.root < tree.size → ∀ name,
        (declareOne tree statement).1.contains ScopeTree.root name = true →
        tree.contains ScopeTree.root name = true ∨
          name ∈ (declareOne tree statement).2) := by
  obtain ⟨statement, kind⟩ := statement
  cases himport : kind.isImport with
  | true =>
      have hsame : declareOne tree (statement, kind) = (tree, []) := by
        simp [declareOne, himport]
      rw [hsame]
      exact ⟨.refl tree, fun _ _ => .inl⟩
  | false =>
      have hgrows := Declarations.grows_visit statement none ScopeTree.root
        ⟨tree, []⟩
      have htree : (declareOne tree (statement, kind)).1 =
          (Declarations.visitStatement tree statement).tree := by
        simp [declareOne, himport]
      rw [htree]
      exact ⟨hgrows.tree, fun hroot name hname =>
        (hgrows.top hroot name hname).imp_right (mem_declareOne himport)⟩

theorem extends_declareFrom (tree : ScopeTree)
    (statements : List (Node × StatementKind)) :
    tree.Extends (declareFrom tree statements).1 := by
  induction statements generalizing tree with
  | nil => exact .refl tree
  | cons statement others ih =>
      exact (declareOne_spec tree statement).1.trans (ih _)

/-- A name of the top level is defined by some statement. -/
theorem mem_defines_of_contains (hroot : ScopeTree.root < tree.size)
    {name : String}
    (hname : (declareFrom tree statements).1.contains ScopeTree.root name =
      true) :
    tree.contains ScopeTree.root name = true ∨
      ∃ defines ∈ (declareFrom tree statements).2, name ∈ defines := by
  induction statements generalizing tree with
  | nil => exact .inl hname
  | cons statement others ih =>
      have hstill := Nat.lt_of_lt_of_le hroot
        (size_le_declareOne hroot statement)
      rcases ih hstill hname with hfirst | ⟨defines, hmem, hdefined⟩
      · apply ((declareOne_spec tree statement).2 hroot name hfirst).imp_right
        exact fun hdefined => ⟨_, List.mem_cons_self, hdefined⟩
      · exact .inr ⟨defines, List.mem_cons_of_mem _ hmem, hdefined⟩

end Analysis

end Bundler
