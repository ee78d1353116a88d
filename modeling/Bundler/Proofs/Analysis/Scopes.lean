import Bundler.Analysis.Basic

/-!
# Scopes around a place

A scope lies within another one if parents lead from it to the other.  Every
scope but the top level has a parent with a smaller number, so the search for a
name comes by all scopes around a place, and a name that is not found in a
function or block is bound in none of them.
-/

namespace Bundler

namespace Node

/-- What holds of a node as soon as it holds of all its parts holds of all
nodes. -/
theorem parts_induction {motive : Node → Prop}
    (hnode : ∀ node : Node, (∀ part ∈ node.parts, motive part.2) → motive node)
    (node : Node) : motive node :=
  hnode node fun part _ => parts_induction hnode part.2
termination_by sizeOf node
decreasing_by exact sizeOf_lt_of_mem_parts ‹_›

/-- A declared function or class declares its name, which is not block scoped. -/
theorem declarations_of_nameOfDeclaration? {node : Node} {found : Occurrence}
    (hfound : found ∈ node.nameOfDeclaration?) :
    node.declarations = [(found.name, false)] := by
  unfold nameOfDeclaration? at hfound
  unfold declarations
  split at hfound
  · rename_i name _ hshape
    simp [hshape, declaredText?, Option.mem_def.mp hfound]
  · rename_i name _ _ hshape
    simp [hshape, declaredText?, Option.mem_def.mp hfound]
  · cases hfound

/-- The places where a construct itself declares names, and whether these are block
scoped. -/
def declaringPlaces (node : Node) : List (Occurrence × Bool) :=
  match node.shape with
  | .funcDeclaration name _ | .classDeclaration name _ _ =>
      name.declaredName?.toList.map (·, false)
  | .forIn (.declare kind pattern) _ _
  | .forOf _ (.declare kind pattern) _ _ =>
      pattern.boundNames.map (·, kind.isBlockScoped)
  | .varDeclaration kind declarators =>
      (declaredNames declarators).map (·, kind.isBlockScoped)
  | _ => []

/-- The names that a construct declares are those at the places where it does. -/
theorem map_declaringPlaces (node : Node) :
    node.declaringPlaces.map (fun place => (place.1.name, place.2)) =
      node.declarations := by
  unfold declaringPlaces declarations
  generalize node.shape = shape
  split <;> simp [declaredText?, Function.comp_def, Option.toList_map]

/-- A place where a construct declares a name is where it names a function or class,
or in a pattern that is a part of it. -/
theorem declaringPlaces_cases {node : Node} {place : Occurrence}
    {isBlockScoped : Bool}
    (hplace : (place, isBlockScoped) ∈ node.declaringPlaces) :
    place ∈ node.nameOfDeclaration? ∨
      ∃ part ∈ node.parts, place ∈ part.2.boundNames := by
  have hmap : ∀ {places : List Occurrence} {flag : Bool},
      (place, isBlockScoped) ∈ places.map (·, flag) → place ∈ places := by
    intro places flag hmem
    obtain ⟨found, hfound, hsame⟩ := List.mem_map.mp hmem
    obtain ⟨rfl, _⟩ := Prod.mk.inj hsame
    exact hfound
  obtain ⟨span, shape⟩ := node
  rw [declaringPlaces] at hplace
  split at hplace
  · rename_i name func hshape
    obtain rfl : shape = .funcDeclaration name func := hshape
    exact .inl (Option.mem_toList.mp (hmap hplace))
  · rename_i name heritage members hshape
    obtain rfl : shape = .classDeclaration name heritage members := hshape
    exact .inl (Option.mem_toList.mp (hmap hplace))
  · rename_i kind pattern source body hshape
    obtain rfl : shape = .forIn (.declare kind pattern) source body := hshape
    exact .inr ⟨_, List.mem_cons_self, hmap hplace⟩
  · rename_i isAwait kind pattern source body hshape
    obtain rfl : shape = .forOf isAwait (.declare kind pattern) source body :=
      hshape
    exact .inr ⟨_, List.mem_cons_self, hmap hplace⟩
  · rename_i kind declarators hshape
    obtain rfl : shape = .varDeclaration kind declarators := hshape
    obtain ⟨declarator, hmem, hfound⟩ := List.mem_flatMap.mp (hmap hplace)
    have hpart : (.declaration, declarator.pattern) ∈
        Shape.parts (.varDeclaration kind declarators) :=
      List.mem_flatMap.mpr ⟨declarator, hmem, List.mem_cons_self⟩
    exact .inr ⟨_, hpart, hfound⟩
  · exact absurd hplace List.not_mem_nil

theorem exists_part_of_nameOfDeclaration? {node : Node} {place : Occurrence}
    (hplace : place ∈ node.nameOfDeclaration?) :
    ∃ part ∈ node.parts, part.2.declaredName? = some place := by
  obtain ⟨span, shape⟩ := node
  rw [nameOfDeclaration?] at hplace
  split at hplace
  · rename_i name func hshape
    obtain rfl : shape = .funcDeclaration name func := hshape
    exact ⟨_, List.mem_cons_self, hplace⟩
  · rename_i name heritage members hshape
    obtain rfl : shape = .classDeclaration name heritage members := hshape
    exact ⟨_, List.mem_cons_self, hplace⟩
  · cases hplace

end Node

namespace ScopeTree

variable {tree : ScopeTree} {id outer : Nat} {name : String}

/-- A scope around another one, which may be the scope itself. -/
inductive Encloses (tree : ScopeTree) (outer : Nat) : Nat → Prop
  | refl {scope : Scope} :
      tree.get? outer = some scope → Encloses tree outer outer
  | parent {id parent : Nat} {scope : Scope} :
      tree.get? id = some scope → scope.parent = some parent →
      Encloses tree outer parent → Encloses tree outer id

/-- A function or block around a place binds a name. -/
def BindsAround (tree : ScopeTree) (id : Nat) (name : String) : Prop :=
  ∃ outer, tree.Encloses outer id ∧ outer ≠ root ∧
    tree.contains outer name = true

/-- The top level has no parent, and any other scope one that was created before
it. -/
structure IsOrdered (tree : ScopeTree) : Prop where
  top : ∃ scope, tree.get? root = some scope ∧ scope.parent = none
  nested : ∀ {id : Nat} {scope : Scope}, tree.get? id = some scope →
    id ≠ root → ∃ parent, scope.parent = some parent ∧ parent < id

section Search

theorem contains_eq_true_iff :
    tree.contains id name = true ↔
      ∃ scope, tree.get? id = some scope ∧ name ∈ scope.names := by
  simp [contains, Option.any_eq_true]

/-- What encloses a scope that itself is not meant encloses its parent. -/
theorem Encloses.of_parent {scope : Scope} {parent : Nat}
    (hencloses : tree.Encloses outer id) (hscope : tree.get? id = some scope)
    (hparent : scope.parent = some parent) (hother : outer ≠ id) :
    tree.Encloses outer parent := by
  cases hencloses with
  | refl => exact absurd rfl hother
  | parent hfound hup houter =>
      rw [hscope] at hfound
      obtain rfl := Option.some.inj hfound
      rw [hparent] at hup
      obtain rfl := Option.some.inj hup
      exact houter

/-- Nothing but the top level is around the top level. -/
theorem IsOrdered.eq_root_of_encloses (hordered : tree.IsOrdered)
    (hencloses : tree.Encloses outer root) : outer = root := by
  obtain ⟨scope, hscope, hparent⟩ := hordered.top
  cases hencloses with
  | refl => rfl
  | parent hfound hup _ =>
      rw [hscope] at hfound
      obtain rfl := Option.some.inj hfound
      rw [hparent] at hup
      cases hup

/-- The search finds a function or block just if one around the place binds the
name and none of them hides another binding at the top level. -/
theorem IsOrdered.bindsAround_iff (hordered : tree.IsOrdered) :
    tree.BindsAround id name ↔
      (tree.findScope? id name).any (· ≠ root) = true := by
  induction id using Nat.strongRecOn with
  | ind id ih =>
    rw [findScope?]
    cases hscope : tree.get? id with
    | none =>
        constructor
        · rintro ⟨outer, hencloses, _⟩
          cases hencloses with
          | refl hfound => simp [hscope] at hfound
          | parent hfound => simp [hscope] at hfound
        · simp
    | some scope =>
        by_cases hname : name ∈ scope.names
        · have hcontains : tree.contains id name = true :=
            contains_eq_true_iff.mpr ⟨scope, hscope, hname⟩
          simp only [List.contains_iff_mem, hname, if_true, Option.any_some,
            decide_eq_true_eq]
          constructor
          · rintro ⟨outer, hencloses, hnested, _⟩ rfl
            exact hnested (hordered.eq_root_of_encloses hencloses)
          · exact fun hnested => ⟨id, .refl hscope, hnested, hcontains⟩
        · have hother : ∀ outer, tree.contains outer name = true →
              outer ≠ id := by
            rintro outer hcontains rfl
            obtain ⟨found, hfound, hmem⟩ := contains_eq_true_iff.mp hcontains
            rw [hscope] at hfound
            exact hname (Option.some.inj hfound ▸ hmem)
          simp only [List.contains_iff_mem, hname, if_false]
          by_cases hroot : id = root
          · subst hroot
            obtain ⟨found, hfound, hparent⟩ := hordered.top
            rw [hscope] at hfound
            obtain rfl := Option.some.inj hfound
            rw [hparent]
            constructor
            · rintro ⟨outer, hencloses, hnested, _⟩
              exact absurd (hordered.eq_root_of_encloses hencloses) hnested
            · simp
          · obtain ⟨parent, hparent, hless⟩ := hordered.nested hscope hroot
            rw [hparent]
            simp only [hless, if_true]
            rw [← ih parent hless]
            constructor
            · rintro ⟨outer, hencloses, hnested, hcontains⟩
              exact ⟨outer, hencloses.of_parent hscope hparent
                (hother outer hcontains), hnested, hcontains⟩
            · rintro ⟨outer, hencloses, hnested, hcontains⟩
              exact ⟨outer, .parent hscope hparent hencloses, hnested,
                hcontains⟩

/-- The names of functions and blocks are those that one of them binds. -/
theorem mem_nestedNames_of_contains (hnested : outer ≠ root)
    (hcontains : tree.contains outer name = true) :
    name ∈ tree.nestedNames := by
  obtain ⟨scope, hscope, hname⟩ := contains_eq_true_iff.mp hcontains
  rw [nestedNames, List.mem_flatMap]
  refine ⟨scope, ?_, hname⟩
  rw [List.mem_iff_getElem?]
  have hone : 1 ≤ outer := Nat.one_le_iff_ne_zero.mpr hnested
  refine ⟨outer - 1, ?_⟩
  rw [List.getElem?_drop, Nat.add_sub_cancel' hone, Array.getElem?_toList]
  exact hscope

theorem BindsAround.mem_nestedNames (hbinds : tree.BindsAround id name) :
    name ∈ tree.nestedNames := by
  obtain ⟨outer, _, hnested, hcontains⟩ := hbinds
  exact mem_nestedNames_of_contains hnested hcontains

end Search

section Growth

theorem isOrdered_initial : initial.IsOrdered where
  top := ⟨⟨none, [], false, 0⟩, rfl, rfl⟩
  nested := by
    intro id scope hscope hnested
    obtain ⟨hid, _⟩ := Array.getElem?_eq_some_iff.mp hscope
    have hone : id < 1 := hid
    exact absurd (Nat.lt_one_iff.mp hone) hnested

variable {parent : Nat} {parameters : List String} {isBlock : Bool}

theorem size_create :
    (tree.create parent parameters isBlock).2.size = tree.size + 1 := by
  simp [create, size]

/-- Creating a scope leaves the others as they are. -/
theorem get?_create :
    (tree.create parent parameters isBlock).2.get? id =
      if id = tree.size then
        some ⟨some parent, parameters.foldl pushNew [], isBlock,
          tree.depth parent + 1⟩
      else tree.get? id := by
  simp only [create, get?, Array.getElem?_push]
  rfl

theorem lt_size_of_get? {scope : Scope} (hscope : tree.get? id = some scope) :
    id < tree.size := (Array.getElem?_eq_some_iff.mp hscope).1

theorem get?_create_of_get? {scope : Scope}
    (hscope : tree.get? id = some scope) :
    (tree.create parent parameters isBlock).2.get? id = some scope := by
  rw [get?_create, if_neg (Nat.ne_of_lt (lt_size_of_get? hscope)), hscope]

theorem IsOrdered.create (hordered : tree.IsOrdered)
    (hparent : parent < tree.size) :
    (tree.create parent parameters isBlock).2.IsOrdered := by
  constructor
  · obtain ⟨scope, hscope, hnone⟩ := hordered.top
    exact ⟨scope, get?_create_of_get? hscope, hnone⟩
  · intro id scope hscope hnested
    rw [get?_create] at hscope
    split at hscope
    · rename_i hid
      obtain rfl := Option.some.inj hscope
      exact ⟨parent, rfl, hid ▸ hparent⟩
    · exact hordered.nested hscope hnested

theorem size_bind : (tree.bind id name).size = tree.size := by
  simp [bind, size]

/-- Binding a name changes the names of one scope and nothing else. -/
theorem get?_bind {other : Nat} :
    (tree.bind id name).get? other = (tree.get? other).map fun scope =>
      if id = other then { scope with names := pushNew scope.names name }
      else scope := by
  simp only [bind, get?, Array.getElem?_modify]
  by_cases hid : id = other <;> simp [hid]

theorem IsOrdered.bind (hordered : tree.IsOrdered) :
    (tree.bind id name).IsOrdered := by
  have hparent : ∀ {other : Nat} {scope : Scope},
      (tree.bind id name).get? other = some scope →
      ∃ old, tree.get? other = some old ∧ old.parent = scope.parent := by
    intro other scope hscope
    rw [get?_bind, Option.map_eq_some_iff] at hscope
    obtain ⟨old, hold, rfl⟩ := hscope
    exact ⟨old, hold, by split <;> rfl⟩
  constructor
  · obtain ⟨scope, hscope, hnone⟩ := hordered.top
    rw [get?_bind, hscope]
    exact ⟨_, rfl, by split <;> exact hnone⟩
  · intro other scope hscope hnested
    obtain ⟨old, hold, hsame⟩ := hparent hscope
    rw [← hsame]
    exact hordered.nested hold hnested

end Growth

end ScopeTree

namespace Declarations

/-- Scopes are only added, and those of one statement lie within the scope that
it stands in. -/
structure Adds (before after : Declarations) : Prop where
  ordered : before.tree.IsOrdered → after.tree.IsOrdered
  size : before.tree.size ≤ after.tree.size

namespace Adds

theorem refl (state : Declarations) : Adds state state :=
  ⟨id, Nat.le_refl _⟩

theorem trans {first second third : Declarations} (hfirst : Adds first second)
    (hsecond : Adds second third) : Adds first third :=
  ⟨hsecond.ordered ∘ hfirst.ordered, Nat.le_trans hfirst.size hsecond.size⟩

end Adds

theorem adds_declare (scope : Nat) (state : Declarations)
    (declared : String × Bool) : Adds state (declare scope state declared) where
  ordered := ScopeTree.IsOrdered.bind
  size := Nat.le_of_eq ScopeTree.size_bind.symm

/-- The scope for the parts of a construct is one of the tree. -/
theorem adds_enter {scope : Nat} {state : Declarations}
    (hscope : scope < state.tree.size) (new : Option NewScope) :
    Adds state (state.enter scope new).2 ∧
      (state.enter scope new).1 < (state.enter scope new).2.tree.size := by
  cases new with
  | none => exact ⟨.refl state, hscope⟩
  | some new =>
      have hsize : (state.tree.create scope new.parameters
          new.isBlock).2.size = state.tree.size + 1 := ScopeTree.size_create
      have hless : state.tree.size < state.tree.size + 1 :=
        Nat.lt_succ_self _
      rw [← hsize] at hless
      exact ⟨⟨fun hordered => hordered.create hscope, Nat.le_of_lt hless⟩,
        hless⟩

theorem adds_visit (node : Node) (ownName : Option String) {scope : Nat}
    {state : Declarations} (hscope : scope < state.tree.size) :
    Adds state (visit ownName scope node state) := by
  induction node using Node.parts_induction generalizing ownName scope state with
  | hnode node ih =>
    rw [visit]
    generalize hentering : state.enter scope (node.newScope? ownName) = entering
    obtain ⟨inner, entered⟩ := entering
    obtain ⟨hentered, hinner⟩ := adds_enter hscope (node.newScope? ownName)
    rw [hentering] at hentered hinner
    have hdeclared : Adds entered
        (node.declarations.foldl (declare inner) entered) :=
      List.foldlRecOn _ _ (.refl entered) fun later hlater declared _ =>
        hlater.trans (adds_declare inner later declared)
    -- The parts are visited in order, each within the scope entered here.
    have hparts : ∀ later : Declarations, Adds entered later →
        Adds later (node.parts.attach.foldl
          (fun state part => visit node.ownName? inner part.1.2 state) later) := by
      intro later hlater
      apply List.foldlRecOn _ _ (.refl later)
      intro next hnext part _
      have hinside : inner < next.tree.size :=
        Nat.lt_of_lt_of_le hinner (hlater.trans hnext).size
      exact hnext.trans (ih part.1 part.2 node.ownName? hinside)
    exact (hentered.trans hdeclared).trans (hparts _ hdeclared)

/-- The scopes of a module are ordered. -/
theorem isOrdered_declareAll (statements : List (Node × StatementKind)) :
    (Analysis.declareAll statements).1.IsOrdered := by
  have hstart : ScopeTree.initial.IsOrdered ∧
      ScopeTree.root < ScopeTree.initial.size :=
    ⟨ScopeTree.isOrdered_initial, Nat.zero_lt_one⟩
  rw [Analysis.declareAll]
  refine (List.foldlRecOn statements _
    (motive := fun state : ScopeTree × List (List String) =>
      state.1.IsOrdered ∧ ScopeTree.root < state.1.size) hstart ?_).1
  rintro ⟨tree, defines⟩ ⟨hordered, hroot⟩ ⟨statement, kind⟩ _
  by_cases himport : kind.isImport = true
  · simp only [himport, if_true]
    exact ⟨hordered, hroot⟩
  · simp only [himport]
    have hadds : Adds ⟨tree, []⟩ (visitStatement tree statement) :=
      adds_visit statement none hroot
    exact ⟨hadds.ordered hordered, Nat.lt_of_lt_of_le hroot hadds.size⟩

end Declarations

end Bundler
