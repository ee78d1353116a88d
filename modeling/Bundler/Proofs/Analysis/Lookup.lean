import Bundler.Proofs.Analysis.Definers
import Bundler.Proofs.Analysis.Holding

/-!
# Lookup in scopes

Both walks through a module enter every node with the same scope, and what that
scope and those around it hold in the end is what the frames around the node bind.
So to look up a name from the scope by the numbers of scopes is to look it up in
the frames, and the second walk records just those names that no frame binds.
-/

namespace Bundler

namespace ScopeTree

variable {tree later final : ScopeTree} {id low high : Nat} {name : String}
  {frames : List Frame}

/-- The functions and blocks around a place, as scopes and as frames. -/
inductive HasFrames (tree : ScopeTree) : Nat → List Frame → Prop
  | top : HasFrames tree root []
  | nested {id parent : Nat} {scope : Scope} {frame : Frame}
      {frames : List Frame} :
      id ≠ root → tree.get? id = some scope → scope.parent = some parent →
      scope.isBlock = frame.isBlock →
      (∀ name, name ∈ scope.names ↔ name ∈ frame.names) →
      HasFrames tree parent frames → HasFrames tree id (frame :: frames)

/-- A function or block around a place binds a name just if a frame does. -/
theorem HasFrames.bindsAround_iff (hordered : tree.IsOrdered)
    (hframes : tree.HasFrames id frames) :
    tree.BindsAround id name ↔ ∃ frame ∈ frames, name ∈ frame.names := by
  induction hframes with
  | top =>
      constructor
      · rintro ⟨outer, hencloses, hnested, _⟩
        exact absurd (hordered.eq_root_of_encloses hencloses) hnested
      · rintro ⟨frame, hframe, _⟩
        exact absurd hframe List.not_mem_nil
  | @nested id parent scope frame frames hnested hscope hparent _ hnames _ ih =>
      rw [List.exists_mem_cons_iff, ← ih]
      constructor
      · rintro ⟨outer, hencloses, houter, hcontains⟩
        by_cases hself : outer = id
        · subst hself
          obtain ⟨found, hfound, hname⟩ := contains_eq_true_iff.mp hcontains
          rw [hscope] at hfound
          obtain rfl := Option.some.inj hfound
          exact .inl ((hnames name).mp hname)
        · exact .inr ⟨outer, hencloses.of_parent hscope hparent hself, houter,
            hcontains⟩
      · rintro (hname | ⟨outer, hencloses, houter, hcontains⟩)
        · exact ⟨id, .refl hscope, hnested,
            contains_eq_true_iff.mpr ⟨scope, hscope, (hnames name).mpr hname⟩⟩
        · exact ⟨outer, .parent hscope hparent hencloses, houter, hcontains⟩

/-- A name that is bound somewhere around a place is found from there. -/
theorem Encloses.isSome_findScope? {outer : Nat} (hordered : tree.IsOrdered)
    (hencloses : tree.Encloses outer id)
    (hcontains : tree.contains outer name = true) :
    (tree.findScope? id name).isSome = true := by
  induction hencloses with
  | refl hscope =>
      obtain ⟨scope, hfound, hname⟩ := contains_eq_true_iff.mp hcontains
      rw [findScope?, hfound]
      simp [hname]
  | @parent id parent scope hscope hparent _ ih =>
      rw [findScope?, hscope]
      dsimp only
      split
      · rfl
      · have hnested : id ≠ root := by
          rintro rfl
          obtain ⟨top, htop, hnone⟩ := hordered.top
          rw [hscope] at htop
          obtain rfl := Option.some.inj htop
          rw [hparent] at hnone
          cases hnone
        obtain ⟨other, hother, hless⟩ := hordered.nested hscope hnested
        rw [hparent] at hother
        obtain rfl := Option.some.inj hother
        simp only [hparent, hless, if_true]
        exact ih

/-- The scopes of a tree from a number on are the same in a later tree. -/
structure Settled (low : Nat) (tree later : ScopeTree) : Prop where
  scope : ∀ {id : Nat} {scope : Scope}, low ≤ id → tree.get? id = some scope →
    ∃ other, later.get? id = some other ∧ other.parent = scope.parent ∧
      other.isBlock = scope.isBlock ∧
      ∀ name, name ∈ other.names ↔ name ∈ scope.names

namespace Settled

theorem refl (low : Nat) (tree : ScopeTree) : Settled low tree tree :=
  ⟨fun _ hscope => ⟨_, hscope, rfl, rfl, fun _ => Iff.rfl⟩⟩

theorem trans (hfirst : Settled low tree later)
    (hsecond : Settled low later final) : Settled low tree final := by
  constructor
  intro id scope hlow hscope
  obtain ⟨between, hbetween, hparent, hblock, hnames⟩ :=
    hfirst.scope hlow hscope
  obtain ⟨other, hother, hsame, hkind, hmore⟩ := hsecond.scope hlow hbetween
  exact ⟨other, hother, hsame.trans hparent, hkind.trans hblock,
    fun name => (hmore name).trans (hnames name)⟩

theorem mono (hless : low ≤ high) (hsettled : Settled low tree later) :
    Settled high tree later :=
  ⟨fun hhigh => hsettled.scope (Nat.le_trans hless hhigh)⟩

theorem of_stays (hstays : Stays tree later)
    (hcontains : ∀ id, low ≤ id → id < tree.size → ∀ name,
      later.contains id name = true ↔ tree.contains id name = true) :
    Settled low tree later := by
  constructor
  intro id scope hlow hscope
  obtain ⟨other, hother, hparent, hblock⟩ := hstays.scope hscope
  refine ⟨other, hother, hparent, hblock, fun name => ?_⟩
  have hsame := hcontains id hlow (lt_size_of_get? hscope) name
  rw [contains_eq_true_iff, contains_eq_true_iff, hscope, hother] at hsame
  simpa using hsame

end Settled

end ScopeTree

namespace Declarations

variable {state : Declarations} {scope : Nat} {final : ScopeTree}
  {frames : List Frame}

/-- A walk through a node leaves the scopes alone that are within the one that it
goes through. -/
theorem settled_visit (ownName : Option String) (node : Node)
    (hscope : scope < state.tree.size) :
    state.tree.Settled (scope + 1)
      (walk.visit ownName scope node state).tree := by
  refine .of_stays (stays_visit ownName scope node state) ?_
  intro id hlow hid name
  refine ((Records.contains id name).ofNode node hid hscope).trans
    (or_iff_left ?_)
  rintro ⟨isBlockScoped, hhome, _⟩
  have hle := state.tree.home_le scope isBlockScoped
  rw [hhome] at hle
  exact Nat.lt_irrefl _ (Nat.lt_of_lt_of_le hlow hle)

theorem settled_visitParts (whole : Node) (parts : List (Role × Node))
    (hscope : scope < state.tree.size) :
    state.tree.Settled (scope + 1)
      (walk.visitParts whole scope parts state).tree := by
  refine (List.foldlRecOn parts _ (motive := fun later : Declarations =>
    scope < later.tree.size ∧ state.tree.Settled (scope + 1) later.tree)
    ⟨hscope, .refl _ _⟩ ?_).2
  rintro later ⟨hless, hlater⟩ part _
  exact ⟨Nat.lt_of_lt_of_le hless (stays_visit _ scope part.2 later).size_le,
    hlater.trans (settled_visit _ part.2 hless)⟩

theorem extends_visitParts (whole : Node) (scope : Nat)
    (parts : List (Role × Node)) (state : Declarations) :
    state.tree.Extends (walk.visitParts whole scope parts state).tree := by
  refine List.foldlRecOn parts _ (motive := fun later : Declarations =>
    state.tree.Extends later.tree) (.refl state.tree) ?_
  intro later hlater part _
  refine hlater.trans ?_
  rw [← visit_eq_walk]
  exact (grows_visit part.2 _ scope later).tree

/-- In the end the functions and blocks around a scope bind what the frames of a
site do, and the name of a function or class declared at the site is found. -/
structure Stands (final : ScopeTree) (scope : Nat) (site : Site) : Prop where
  frames : final.HasFrames scope site.frames
  declared : ∀ found ∈ site.node.nameOfDeclaration?,
    (final.findScope? scope found.name).isSome = true

/-- The scope that a construct opens holds in the end what it binds as a frame. -/
theorem hasFrames_enter {node : Node} {ownName : Option String}
    (hscope : scope < state.tree.size) (hframes : final.HasFrames scope frames)
    (hsettled : (walk.visit ownName scope node state).tree.Settled
      state.tree.size final) :
    final.HasFrames (walk.enter ownName scope node state).1
      ((node.frame? ownName).toList ++ frames) := by
  rw [TreeWalk.visit_eq] at hsettled
  simp only [walk, Node.frame?] at hsettled ⊢
  cases hnew : node.newScope? ownName with
  | none => exact hframes
  | some new =>
      rw [hnew] at hsettled
      have hentered : state.tree.size <
          (state.enter scope (some new)).2.tree.size :=
        (adds_enter hscope (some new)).2
      have hget : (state.enter scope (some new)).2.tree.get? state.tree.size =
          some ⟨some scope, new.parameters.foldl pushNew [], new.isBlock,
            state.tree.depth scope + 1⟩ := ScopeTree.get?_create_size
      have hstays := (stays_declareAll state.tree.size node.declarations
        (state.enter scope (some new)).2).trans
          (stays_visitParts node state.tree.size node.parts _)
      obtain ⟨found, hfound, hparent, hblock⟩ := hstays.scope hget
      obtain ⟨other, hother, hup, hkind, hnames⟩ :=
        hsettled.scope (Nat.le_refl _) hfound
      refine .nested (Nat.ne_of_gt (Nat.lt_of_le_of_lt (Nat.zero_le _) hscope))
        hother (hup.trans hparent) (hkind.trans hblock) (fun name => ?_) hframes
      -- What the scope holds is what it was opened with and what is declared for
      -- it within the node.
      have hparts : ∀ part ∈ node.parts, Records.OfNode
          (fun later => later.tree.contains state.tree.size name = true)
          state.tree.size name part.2 :=
        fun part _ => (Records.contains state.tree.size name).ofNode part.2
      have hcontents := (Records.contains state.tree.size name).ofContents
        hparts hentered hentered
      have hfirst : (state.enter scope (some new)).2.tree.contains
          state.tree.size name = true ↔ name ∈ new.parameters :=
        ScopeTree.contains_create_size
      have hhome : (state.enter scope (some new)).2.tree.home
          state.tree.size false =
            if new.isBlock then state.tree.home scope false
            else state.tree.size := ScopeTree.home_create_size hscope
      have hown : (state.enter scope (some new)).2.tree.home
          state.tree.size true = state.tree.size := rfl
      have houter : state.tree.home scope false ≠ state.tree.size :=
        Nat.ne_of_lt (Nat.lt_of_le_of_lt (state.tree.home_le scope false) hscope)
      rw [ScopeTree.contains_eq_true_iff, hfound, hfirst] at hcontents
      simp only [Bool.exists_bool, hhome, hown, true_and, Option.some.injEq,
        exists_eq_left'] at hcontents
      rw [hnames, hcontents, List.mem_append, List.mem_append, or_assoc,
        or_comm (a := name ∈ node.contents true)]
      cases new.isBlock with
      | true => simp [houter]
      | false => simp

/-- The name of a declared function or class is bound where it is declared, or in
the function around. -/
theorem isSome_findScope?_enter {node : Node} {ownName : Option String}
    (hordered : final.IsOrdered) (hscope : scope < state.tree.size)
    (hextends : (walk.enter ownName scope node state).2.tree.Extends final)
    {found : Occurrence} (hfound : found ∈ node.nameOfDeclaration?) :
    (final.findScope? (walk.enter ownName scope node state).1
      found.name).isSome = true := by
  simp only [walk] at hextends ⊢
  have hinner := (adds_enter hscope (node.newScope? ownName)).2
  generalize (state.enter scope (node.newScope? ownName)).1 = inner at *
  generalize (state.enter scope (node.newScope? ownName)).2 = entered at *
  rw [Node.declarations_of_nameOfDeclaration? hfound, List.foldl_cons,
    List.foldl_nil] at hextends
  have hencloses := ScopeTree.encloses_functionScope hinner
  have hcontains : (declare inner entered (found.name, false)).tree.contains
      (entered.tree.functionScope inner) found.name = true :=
    ScopeTree.contains_bind.mpr (.inr ⟨rfl, rfl, hencloses.exists_get?⟩)
  obtain ⟨scope, hget, hname⟩ := ScopeTree.contains_eq_true_iff.mp hcontains
  obtain ⟨other, hother, _, hnames⟩ := hextends.scope hget
  exact (((ScopeTree.Extends.bind entered.tree _ _).trans hextends).encloses
    hencloses).isSome_findScope? hordered
      (ScopeTree.contains_eq_true_iff.mpr ⟨other, hother, hnames _ hname⟩)

/-- What is kept of a node in the end is kept of its parts. -/
theorem stands_visit (hordered : final.IsOrdered) (node : Node)
    (ownName : Option String) (isShorthand : Bool)
    (hscope : scope < state.tree.size) (hframes : final.HasFrames scope frames)
    (hsettled : (walk.visit ownName scope node state).tree.Settled
      state.tree.size final)
    (hextends : (walk.visit ownName scope node state).tree.Extends final) :
    List.Forall₂ (Stands final) (walk.scopes ownName scope node state)
      (node.sites ownName isShorthand frames) := by
  induction node using Node.parts_induction
    generalizing ownName isShorthand scope state frames with
  | hnode node ih =>
    have hinner := hasFrames_enter hscope hframes hsettled
    rw [TreeWalk.scopes_eq, Node.sites_eq]
    rw [TreeWalk.visit_eq] at hsettled hextends
    have hadds : state.tree.size ≤
          (walk.enter ownName scope node state).2.tree.size ∧
        (walk.enter ownName scope node state).1 <
          (walk.enter ownName scope node state).2.tree.size := by
      obtain ⟨hentered, hless⟩ := adds_enter hscope (node.newScope? ownName)
      have hsize := (stays_declareAll
        (state.enter scope (node.newScope? ownName)).1 node.declarations
        (state.enter scope (node.newScope? ownName)).2).size_le
      exact ⟨Nat.le_trans hentered.size hsize, Nat.lt_of_lt_of_le hless hsize⟩
    refine .cons ⟨hinner, fun found hfound => isSome_findScope?_enter hordered
      hscope ((extends_visitParts node _ node.parts _).trans hextends) hfound⟩ ?_
    replace hsettled := hsettled.mono hadds.1
    generalize (node.frame? ownName).toList ++ frames = around at *
    generalize (walk.enter ownName scope node state).1 = inner at *
    generalize (walk.enter ownName scope node state).2 = entered at *
    have hparts : ∀ parts : List (Role × Node), parts ⊆ node.parts →
        ∀ {state : Declarations}, inner < state.tree.size →
        (walk.visitParts node inner parts state).tree.Settled
          state.tree.size final →
        (walk.visitParts node inner parts state).tree.Extends final →
        List.Forall₂ (Stands final)
          (walk.scopesOfParts node inner parts state)
          (parts.flatMap fun part => part.2.sites node.ownName?
            (node.partIsShorthand part.1) around) := by
      intro parts hsubset
      induction parts with
      | nil => exact fun _ _ _ => .nil
      | cons part parts ihParts =>
          intro state hless hsettled hextends
          obtain ⟨hpart, hothers⟩ := List.cons_subset.mp hsubset
          have hsize := (stays_visit node.ownName? inner part.2 state).size_le
          have hstill := Nat.lt_of_lt_of_le hless hsize
          -- Later parts leave the scopes of this one alone.
          have hrest := (settled_visitParts node parts hstill).mono hless
          have hbehind := extends_visitParts node inner parts
            (walk.visit node.ownName? inner part.2 state)
          exact List.rel_append
            (ih part hpart node.ownName? _ hless hinner
              (hrest.trans hsettled) (hbehind.trans hextends))
            (ihParts hothers hstill (hsettled.mono hsize) hextends)
    exact hparts node.parts (List.Subset.refl _) hadds.2 hsettled hextends

/-- The scopes that the nodes of some statements of a module are entered with. -/
def scopesFrom (tree : ScopeTree) :
    List (Node × StatementKind) → List (List Nat)
  | [] => []
  | statement :: others =>
      (if statement.2.isImport then []
        else walk.scopes none ScopeTree.root statement.1 ⟨tree, []⟩) ::
        scopesFrom (Analysis.declareOne tree statement).1 others

section Statements

variable {tree : ScopeTree} {statements : List (Node × StatementKind)}

theorem declareOne_fst {statement : Node} {kind : StatementKind}
    (himport : kind.isImport = false) :
    (Analysis.declareOne tree (statement, kind)).1 =
      (walk.visit none ScopeTree.root statement ⟨tree, []⟩).tree := by
  simp [Analysis.declareOne, himport, visitStatement, visit_eq_walk]

theorem settled_declareFrom (hroot : ScopeTree.root < tree.size) :
    tree.Settled (ScopeTree.root + 1)
      (Analysis.declareFrom tree statements).1 := by
  induction statements generalizing tree with
  | nil => exact .refl _ tree
  | cons statement others ih =>
      obtain ⟨statement, kind⟩ := statement
      have hstill := Nat.lt_of_lt_of_le hroot
        (Analysis.size_le_declareOne hroot (statement, kind))
      refine ScopeTree.Settled.trans ?_ (ih hstill)
      cases himport : kind.isImport with
      | true =>
          simp only [Analysis.declareOne, himport, if_true]
          exact .refl _ tree
      | false =>
          rw [declareOne_fst himport]
          have hstart : ScopeTree.root < (Declarations.mk tree []).tree.size :=
            hroot
          exact settled_visit none statement hstart

/-- The scopes of a module hold what the frames of its sites bind. -/
theorem stands_from (hordered : final.IsOrdered)
    (hroot : ScopeTree.root < tree.size)
    (hsettled : (Analysis.declareFrom tree statements).1.Settled tree.size
      final)
    (hextends : (Analysis.declareFrom tree statements).1.Extends final) :
    List.Forall₂ (List.Forall₂ (Stands final)) (scopesFrom tree statements)
      (statements.map Site.ofStatement) := by
  induction statements generalizing tree with
  | nil => exact .nil
  | cons statement others ih =>
      obtain ⟨statement, kind⟩ := statement
      have hsize := Analysis.size_le_declareOne hroot (statement, kind)
      have hstill := Nat.lt_of_lt_of_le hroot hsize
      refine .cons ?_ (ih hstill (hsettled.mono hsize) hextends)
      cases himport : kind.isImport with
      | true =>
          simp only [Site.ofStatement, himport, if_true]
          exact .nil
      | false =>
          simp only [Site.ofStatement, himport, Bool.false_eq_true, if_false]
          have hfirst : (Analysis.declareOne tree (statement, kind)).1.Settled
              tree.size final :=
            ((settled_declareFrom hstill).mono hroot).trans hsettled
          have hbehind := (Analysis.extends_declareFrom
            (Analysis.declareOne tree (statement, kind)).1 others).trans hextends
          rw [declareOne_fst himport] at hfirst hbehind
          have hstart : ScopeTree.root < (Declarations.mk tree []).tree.size :=
            hroot
          exact stands_visit hordered statement none false hstart .top hfirst
            hbehind

end Statements

end Declarations

end Bundler
