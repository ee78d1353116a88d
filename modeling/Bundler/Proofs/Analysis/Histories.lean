import Bundler.Proofs.Analysis.Holding

/-!
# Histories of scope trees

A scope tree comes about from the one of a module without functions and blocks by
creating scopes within those that there are and by declaring names in them.  What
was done, with the scope that each operation gave, says all about the tree: which
scope each one lies within, and which names it binds.  The two searches outwards
go through the scopes around a place in order and stop at the first that fits.
-/

namespace Bundler

namespace ScopeTree

/-- What can be done with a tree. -/
inductive Operation
  | create (parent : Nat) (parameters : List String) (isBlock : Bool)
  | declare (id : Nat) (name : String) (isBlockScoped : Bool)

/-- The scope that an operation is told. -/
def Operation.scope : Operation → Nat
  | create parent _ _ => parent
  | declare id _ _ => id

/-- The names that an operation binds. -/
def Operation.names : Operation → List String
  | create _ parameters _ => parameters
  | declare _ name _ => [name]

/-- The scope in which names are bound by an operation, and the tree then. -/
def perform (tree : ScopeTree) : Operation → Nat × ScopeTree
  | .create parent parameters isBlock => tree.create parent parameters isBlock
  | .declare id name isBlockScoped => tree.declare id name isBlockScoped

/-- A tree that comes about by operations on scopes that there are.  The history
holds them with the scopes they gave, the last one first. -/
inductive Made : List (Operation × Nat) → ScopeTree → Prop
  | initial : Made [] initial
  | perform {history : List (Operation × Nat)} {tree later : ScopeTree}
      {operation : Operation} {answer : Nat} (hmade : Made history tree)
      (hscope : operation.scope < tree.size)
      (hperform : tree.perform operation = (answer, later)) :
      Made ((operation, answer) :: history) later

/-- A name was bound in a scope, as a parameter or by a declaration. -/
def Binds (history : List (Operation × Nat)) (id : Nat) (name : String) : Prop :=
  ∃ operation, (operation, id) ∈ history ∧ name ∈ operation.names

/-- Whether a scope is no block. -/
def isFunction (tree : ScopeTree) (id : Nat) : Bool :=
  (tree.get? id).any (! ·.isBlock)

/-- The scopes from one on outwards, as parents lead from each to the next. -/
inductive Chain (tree : ScopeTree) : Nat → List Nat → Prop
  | top {id : Nat} {scope : Scope} (hscope : tree.get? id = some scope)
      (hparent : scope.parent = none) : Chain tree id [id]
  | nested {id parent : Nat} {scope : Scope} {outers : List Nat}
      (hscope : tree.get? id = some scope)
      (hparent : scope.parent = some parent)
      (hchain : Chain tree parent outers) : Chain tree id (id :: outers)

/-- What is found when one goes outwards: the first scope that fits, or nothing if
none does. -/
def Nearest (fits : Nat → Prop) (chain : List Nat) : Option Nat → Prop
  | some found => ∃ inners outers, chain = inners ++ found :: outers ∧
      fits found ∧ ∀ inner ∈ inners, ¬ fits inner
  | none => ∀ outer ∈ chain, ¬ fits outer

/-- A tree is what its history says. -/
structure Mirrors (history : List (Operation × Nat)) (tree : ScopeTree) :
    Prop where
  /-- The top level lies within nothing and is no block. -/
  top : ∃ scope, tree.get? root = some scope ∧ scope.parent = none ∧
    scope.isBlock = false ∧ scope.depth = 0
  /-- Every other scope lies within the one that it was created in, which is older
  and one less deep. -/
  nested : ∀ {id : Nat} {scope : Scope}, tree.get? id = some scope → id ≠ root →
    ∃ parent parameters, (.create parent parameters scope.isBlock, id) ∈ history ∧
      scope.parent = some parent ∧ parent < id ∧
      scope.depth = tree.depth parent + 1
  /-- A scope binds just the names that were bound in it. -/
  contains_iff : ∀ {id : Nat} {name : String},
    tree.contains id name = true ↔ Binds history id name

variable {history : List (Operation × Nat)} {tree later : ScopeTree}
  {operation : Operation} {id other parent answer : Nat} {name bound : String}

section Making

variable {parameters : List String} {isBlock : Bool}

theorem binds_cons :
    Binds ((operation, answer) :: history) id name ↔
      (answer = id ∧ name ∈ operation.names) ∨ Binds history id name := by
  constructor
  · rintro ⟨found, hmem, hname⟩
    rcases List.mem_cons.mp hmem with hfirst | hmem
    · obtain ⟨rfl, rfl⟩ := Prod.mk.inj hfirst
      exact .inl ⟨rfl, hname⟩
    · exact .inr ⟨found, hmem, hname⟩
  · rintro (⟨rfl, hname⟩ | ⟨found, hmem, hname⟩)
    · exact ⟨operation, List.mem_cons_self, hname⟩
    · exact ⟨found, List.mem_cons_of_mem _ hmem, hname⟩

theorem depth_create (hother : other < tree.size) :
    (tree.create parent parameters isBlock).2.depth other = tree.depth other := by
  rw [depth, get?_create, if_neg (Nat.ne_of_lt hother), depth]

theorem depth_bind : (tree.bind id name).depth other = tree.depth other := by
  rw [depth, get?_bind, depth]
  cases tree.get? other with
  | none => rfl
  | some scope =>
      dsimp only [Option.map_some]
      split <;> rfl

theorem contains_create_iff :
    (tree.create parent parameters isBlock).2.contains id name = true ↔
      tree.contains id name = true ∨ id = tree.size ∧ name ∈ parameters := by
  by_cases hid : id = tree.size
  · subst hid
    have hnew : tree.contains tree.size name = false := by
      simp [contains, get?, size]
    rw [contains_create_size, hnew]
    simp
  · rw [contains, get?_create, if_neg hid, contains]
    simp [hid]

theorem mirrors_initial : Mirrors [] initial where
  top := ⟨⟨none, [], false, 0⟩, rfl, rfl, rfl, rfl⟩
  nested hscope hnested := by
    exact absurd (Nat.lt_one_iff.mp (lt_size_of_get? hscope)) hnested
  contains_iff {id name} := by
    constructor
    · intro hcontains
      obtain ⟨scope, hscope, hname⟩ := contains_eq_true_iff.mp hcontains
      obtain ⟨hid, hget⟩ := Array.getElem?_eq_some_iff.mp hscope
      obtain rfl := Nat.lt_one_iff.mp hid
      subst hget
      exact absurd hname List.not_mem_nil
    · rintro ⟨operation, hmem, -⟩
      exact absurd hmem List.not_mem_nil

namespace Mirrors

theorem isOrdered (hmirrors : Mirrors history tree) : tree.IsOrdered where
  top := by
    obtain ⟨scope, hscope, hparent, -⟩ := hmirrors.top
    exact ⟨scope, hscope, hparent⟩
  nested hscope hnested := by
    obtain ⟨parent, -, -, hparent, hless, -⟩ := hmirrors.nested hscope hnested
    exact ⟨parent, hparent, hless⟩

theorem create (hmirrors : Mirrors history tree) (hparent : parent < tree.size) :
    Mirrors ((.create parent parameters isBlock, tree.size) :: history)
      (tree.create parent parameters isBlock).2 where
  top := by
    obtain ⟨scope, hscope, hrest⟩ := hmirrors.top
    exact ⟨scope, get?_create_of_get? hscope, hrest⟩
  nested {id scope} hscope hnested := by
    rw [get?_create] at hscope
    split at hscope
    · rename_i hid
      obtain rfl := Option.some.inj hscope
      subst hid
      refine ⟨parent, parameters, List.mem_cons_self, rfl, hparent, ?_⟩
      rw [depth_create hparent]
    · obtain ⟨outer, names, hmem, hup, hless, hdepth⟩ :=
        hmirrors.nested hscope hnested
      refine ⟨outer, names, List.mem_cons_of_mem _ hmem, hup, hless, ?_⟩
      rw [depth_create (Nat.lt_trans hless (lt_size_of_get? hscope)), hdepth]
  contains_iff {id name} := by
    rw [contains_create_iff, hmirrors.contains_iff, binds_cons, or_comm,
      eq_comm (b := tree.size)]
    rfl

theorem bind (hmirrors : Mirrors history tree) (hid : id < tree.size)
    (hnames : operation.names = [name]) :
    Mirrors ((operation, id) :: history) (tree.bind id name) where
  top := by
    obtain ⟨scope, hscope, hparent, hblock, hdepth⟩ := hmirrors.top
    rw [get?_bind, hscope]
    refine ⟨_, rfl, ?_⟩
    split <;> exact ⟨hparent, hblock, hdepth⟩
  nested {other scope} hscope hnested := by
    rw [get?_bind, Option.map_eq_some_iff] at hscope
    obtain ⟨old, hold, hsame⟩ := hscope
    obtain ⟨parent, parameters, hmem, hup, hless, hdepth⟩ :=
      hmirrors.nested hold hnested
    have hkept : scope.parent = old.parent ∧ scope.isBlock = old.isBlock ∧
        scope.depth = old.depth := by
      rw [← hsame]
      split <;> exact ⟨rfl, rfl, rfl⟩
    rw [hkept.1, hkept.2.1, hkept.2.2]
    refine ⟨parent, parameters, List.mem_cons_of_mem _ hmem, hup, hless, ?_⟩
    rw [depth_bind, hdepth]
  contains_iff {other bound} := by
    rw [contains_bind, hmirrors.contains_iff, binds_cons, hnames,
      List.mem_singleton, or_comm]
    refine or_congr_left (and_congr_right ?_)
    rintro rfl
    exact and_iff_left (exists_get? hid)

/-- One operation keeps the tree what its history says. -/
theorem perform (hmirrors : Mirrors history tree)
    (hscope : operation.scope < tree.size)
    (hperform : tree.perform operation = (answer, later)) :
    Mirrors ((operation, answer) :: history) later := by
  cases operation with
  | create parent parameters isBlock =>
      obtain ⟨rfl, rfl⟩ := Prod.mk.inj hperform
      exact hmirrors.create hscope
  | declare id name isBlockScoped =>
      obtain ⟨rfl, rfl⟩ := Prod.mk.inj hperform
      exact hmirrors.bind (Nat.lt_of_le_of_lt (home_le id isBlockScoped) hscope) rfl

end Mirrors

theorem Made.mirrors (hmade : Made history tree) : Mirrors history tree := by
  induction hmade with
  | initial => exact mirrors_initial
  | perform _ hscope hperform ih => exact ih.perform hscope hperform

end Making

section Searching

variable {chain : List Nat}

theorem IsOrdered.parent_lt {scope : Scope} (hordered : tree.IsOrdered)
    (hscope : tree.get? id = some scope) (hparent : scope.parent = some parent) :
    parent < id := by
  have hnested : id ≠ root := by
    rintro rfl
    obtain ⟨top, htop, hnone⟩ := hordered.top
    rw [hscope] at htop
    rw [← Option.some.inj htop, hparent] at hnone
    cases hnone
  obtain ⟨up, hup, hless⟩ := hordered.nested hscope hnested
  rw [hparent] at hup
  rwa [Option.some.inj hup]

theorem IsOrdered.exists_chain (hordered : tree.IsOrdered)
    (hid : id < tree.size) : ∃ chain, tree.Chain id chain := by
  induction id using Nat.strongRecOn with
  | ind id ih =>
    obtain ⟨scope, hscope⟩ := exists_get? hid
    cases hparent : scope.parent with
    | none => exact ⟨_, .top hscope hparent⟩
    | some parent =>
        have hless := hordered.parent_lt hscope hparent
        obtain ⟨outers, houters⟩ := ih parent hless (Nat.lt_trans hless hid)
        exact ⟨_, .nested hscope hparent houters⟩

/-- The search for a name goes outwards along the chain. -/
theorem IsOrdered.findScope?_eq_find? (hordered : tree.IsOrdered)
    (hchain : tree.Chain id chain) (name : String) :
    tree.findScope? id name = chain.find? (tree.contains · name) := by
  induction hchain with
  | @top _ scope hscope hparent =>
      rw [findScope?, List.find?_cons, contains, hscope]
      by_cases hname : name ∈ scope.names <;> simp [hname, hparent]
  | @nested _ _ scope _ hscope hparent _ ih =>
      have hless := hordered.parent_lt hscope hparent
      rw [findScope?, List.find?_cons, contains, hscope, ← ih]
      by_cases hname : name ∈ scope.names <;> simp [hname, hparent, hless]

/-- The search for the function around a place goes outwards along the chain, and
finds the top level if nothing else. -/
theorem Mirrors.find?_isFunction (hmirrors : Mirrors history tree)
    (hchain : tree.Chain id chain) :
    chain.find? tree.isFunction = some (tree.functionScope id) := by
  induction hchain with
  | @top id scope hscope hparent =>
      have hroot : id = root := Decidable.byContradiction fun hnested => by
        obtain ⟨parent, -, -, hup, -⟩ := hmirrors.nested hscope hnested
        rw [hparent] at hup
        cases hup
      obtain ⟨top, htop, -, hblock, -⟩ := hmirrors.top
      rw [← hroot, hscope] at htop
      obtain rfl := Option.some.inj htop
      rw [functionScope, List.find?_cons, isFunction, hscope]
      simp [hblock]
  | @nested _ _ scope _ hscope hparent _ ih =>
      have hless := hmirrors.isOrdered.parent_lt hscope hparent
      rw [functionScope, List.find?_cons, isFunction, hscope, ih]
      cases hblock : scope.isBlock <;> simp [hblock, hparent, hless]

theorem nearest_find? {fits : Nat → Prop} {test : Nat → Bool}
    (htest : ∀ outer, test outer = true ↔ fits outer) (chain : List Nat) :
    Nearest fits chain (chain.find? test) := by
  cases hfound : chain.find? test with
  | none =>
      intro outer hmem hfits
      exact List.find?_eq_none.mp hfound outer hmem ((htest outer).mpr hfits)
  | some found =>
      obtain ⟨hfits, inners, outers, hsplit, hbefore⟩ :=
        List.find?_eq_some_iff_append.mp hfound
      refine ⟨inners, outers, hsplit, (htest found).mp hfits, ?_⟩
      intro inner hmem hinner
      have hnot := hbefore inner hmem
      rw [(htest inner).mpr hinner] at hnot
      exact Bool.false_ne_true hnot

theorem functionScope_eq_self (hfunction : tree.isFunction id = true) :
    tree.functionScope id = id := by
  rw [isFunction, Option.any_eq_true] at hfunction
  obtain ⟨scope, hscope, hblock⟩ := hfunction
  rw [Bool.not_eq_true'] at hblock
  rw [functionScope, hscope]
  simp only [hblock, Bool.false_eq_true, if_false]

theorem Mirrors.depth_eq_zero_iff (hmirrors : Mirrors history tree)
    (hid : id < tree.size) : tree.depth id = 0 ↔ id = root := by
  constructor
  · intro hzero
    refine Decidable.byContradiction fun hnested => ?_
    obtain ⟨scope, hscope⟩ := exists_get? hid
    obtain ⟨_, _, _, _, _, hdepth⟩ := hmirrors.nested hscope hnested
    rw [depth, hscope] at hzero
    exact Nat.succ_ne_zero _ (hdepth.symm.trans hzero)
  · rintro rfl
    obtain ⟨scope, hscope, -, -, hdepth⟩ := hmirrors.top
    rw [depth, hscope]
    exact hdepth

/-- A tree that comes about by operations is what its history says, and only the
top level has depth zero.  A name is found in the nearest scope on the chain from a
scope to the top level in which it was bound.  A declaration binds its name in the
scope that it is told, or in the nearest one that is no block, and leaves all other
bindings as they are. -/
theorem Made.faithful (hmade : Made history tree) :
    Mirrors history tree ∧
    (∀ id < tree.size, tree.depth id = 0 ↔ id = root) ∧
    ∀ id < tree.size, ∃ chain, tree.Chain id chain ∧
      (∀ name, Nearest (Binds history · name) chain (tree.findScope? id name)) ∧
      ∀ name isBlockScoped, ∃ home later,
        tree.declare id name isBlockScoped = (home, later) ∧
        (isBlockScoped = true ∨ tree.isFunction id = true → home = id) ∧
        (isBlockScoped = false →
          Nearest (tree.isFunction · = true) chain (some home)) ∧
        ∀ other bound, later.contains other bound = true ↔
          tree.contains other bound = true ∨ other = home ∧ bound = name := by
  have hmirrors := hmade.mirrors
  refine ⟨hmirrors, fun id hid => hmirrors.depth_eq_zero_iff hid, fun id hid => ?_⟩
  obtain ⟨chain, hchain⟩ := hmirrors.isOrdered.exists_chain hid
  refine ⟨chain, hchain, fun name => ?_, fun name isBlockScoped =>
    ⟨_, _, rfl, ?_, ?_, ?_⟩⟩
  · rw [hmirrors.isOrdered.findScope?_eq_find? hchain]
    exact nearest_find? (fun _ => hmirrors.contains_iff) chain
  · rintro (rfl | hfunction)
    · rfl
    · cases isBlockScoped with
      | true => rfl
      | false => exact functionScope_eq_self hfunction
  · rintro rfl
    have hnearest : Nearest _ chain _ :=
      @nearest_find? _ tree.isFunction (fun _ => Iff.rfl) chain
    rwa [hmirrors.find?_isFunction hchain] at hnearest
  · intro other bound
    have hhome : tree.home id isBlockScoped < tree.size :=
      Nat.lt_of_le_of_lt (home_le id isBlockScoped) hid
    refine contains_bind.trans (or_congr_right ?_)
    constructor
    · rintro ⟨rfl, hname, -⟩
      exact ⟨rfl, hname⟩
    · rintro ⟨rfl, hname⟩
      exact ⟨rfl, hname, exists_get? hhome⟩

/-- A name that is declared in a block for the function around it. -/
theorem made_faithful_hoisted :
    ∃ tree, Made [(.declare 2 "y" false, 1), (.create 1 [] true, 2),
        (.create root ["p"] false, 1)] tree ∧
      ∃ chain, tree.Chain 2 chain ∧
        ∀ name, Nearest (Binds [(.declare 2 "y" false, 1),
          (.create 1 [] true, 2), (.create root ["p"] false, 1)] · name) chain
          (tree.findScope? 2 name) := by
  let tree := ((initial.create root ["p"] false).2.create 1 [] true).2
  have hcreated : Made [(.create 1 [] true, 2), (.create root ["p"] false, 1)]
      tree :=
    .perform (.perform .initial (by decide) rfl) (by decide) rfl
  have hhome : tree.home 2 false = 1 :=
    (home_create_size (by decide)).trans (home_create_size (by decide))
  have hmade : Made [(.declare 2 "y" false, 1), (.create 1 [] true, 2),
      (.create root ["p"] false, 1)] (tree.bind 1 "y") :=
    .perform hcreated (by decide)
      (congrArg (fun home => (home, tree.bind home "y")) hhome)
  obtain ⟨-, -, hsearch⟩ := hmade.faithful
  obtain ⟨chain, hchain, hfind, -⟩ := hsearch 2 (by decide)
  exact ⟨_, hmade, chain, hchain, hfind⟩

end Searching

end ScopeTree

end Bundler
