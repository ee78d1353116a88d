import Bundler.Proofs.Analysis.Scopes

/-!
# Walks that enter scopes

Both walks through a module go from a node to its parts, each within the scope
that the node is entered with, and carry a state along.  So a walk is given by
what it does at one node.  Besides its outcome it has a record: the scopes that
the nodes of a tree are entered with, each before its parts.  Two walks that
enter every node alike have the same record.
-/

namespace Bundler

/-- What a walk does at one node: it picks the scope for the parts, and tells in
which manner each part is walked through. -/
structure TreeWalk (State Manner : Type) where
  enter : Manner → Nat → Node → State → Nat × State
  manner : Node → Role → Manner

namespace TreeWalk

variable {State Manner Other Style : Type} (walk : TreeWalk State Manner)

/-- The state after a walk through a node within a scope. -/
def visit (manner : Manner) (scope : Nat) (node : Node) (state : State) :
    State :=
  let (inner, state) := walk.enter manner scope node state
  node.parts.attach.foldl
    (fun state part =>
      visit (walk.manner node part.1.1) inner part.1.2 state) state
termination_by sizeOf node
decreasing_by exact Node.sizeOf_lt_of_mem_parts part.2

/-- The scopes that a node and all nodes within it are entered with. -/
def scopes (manner : Manner) (scope : Nat) (node : Node) (state : State) :
    List Nat :=
  let (inner, state) := walk.enter manner scope node state
  inner :: (node.parts.attach.foldl
    (fun found part =>
      (found.1 ++ scopes (walk.manner node part.1.1) inner part.1.2 found.2,
        walk.visit (walk.manner node part.1.1) inner part.1.2 found.2))
    ([], state)).1
termination_by sizeOf node
decreasing_by exact Node.sizeOf_lt_of_mem_parts part.2

/-- The state after a walk through some parts of a node. -/
def visitParts (node : Node) (scope : Nat) (parts : List (Role × Node))
    (state : State) : State :=
  parts.foldl
    (fun state part => walk.visit (walk.manner node part.1) scope part.2 state)
    state

/-- The scopes that some parts of a node are entered with. -/
def scopesOfParts (node : Node) (scope : Nat) :
    List (Role × Node) → State → List Nat
  | [], _ => []
  | part :: parts, state =>
      walk.scopes (walk.manner node part.1) scope part.2 state ++
        scopesOfParts node scope parts
          (walk.visit (walk.manner node part.1) scope part.2 state)

section Unfolding

variable (manner : Manner) (scope : Nat) (node : Node) (state : State)

theorem visit_eq :
    walk.visit manner scope node state =
      walk.visitParts node (walk.enter manner scope node state).1 node.parts
        (walk.enter manner scope node state).2 := by
  rw [visit, visitParts, ← List.foldl_attach]

theorem scopes_eq :
    walk.scopes manner scope node state =
      (walk.enter manner scope node state).1 ::
        walk.scopesOfParts node (walk.enter manner scope node state).1
          node.parts (walk.enter manner scope node state).2 := by
  have hparts : ∀ (inner : Nat) (parts : List (Role × Node)) (state : State)
      (found : List Nat),
      found ++ walk.scopesOfParts node inner parts state =
        (parts.foldl (fun found part =>
          (found.1 ++
              walk.scopes (walk.manner node part.1) inner part.2 found.2,
            walk.visit (walk.manner node part.1) inner part.2 found.2))
          (found, state)).1 := by
    intro inner parts
    induction parts with
    | nil => exact fun _ found => List.append_nil found
    | cons part parts ih =>
        intro state found
        rw [List.foldl_cons, scopesOfParts, ← ih, List.append_assoc]
  rw [scopes, ← List.nil_append (walk.scopesOfParts _ _ _ _), hparts,
    ← List.foldl_attach]

end Unfolding

/-- Walks that enter all nodes with the same scope, and so stay in step, have the
same record. -/
theorem scopes_eq_of_inStep {other : TreeWalk Other Style}
    (InStep : State → Other → Prop)
    (henter : ∀ manner style scope node state with', InStep state with' →
      (walk.enter manner scope node state).1 =
          (other.enter style scope node with').1 ∧
        InStep (walk.enter manner scope node state).2
          (other.enter style scope node with').2)
    (node : Node) (manner : Manner) (style : Style) (scope : Nat)
    {state : State} {beside : Other} (hstart : InStep state beside) :
    walk.scopes manner scope node state = other.scopes style scope node beside ∧
      InStep (walk.visit manner scope node state)
        (other.visit style scope node beside) := by
  induction node using Node.parts_induction
    generalizing manner style scope state beside with
  | hnode node ih =>
    obtain ⟨hscope, hentered⟩ :=
      henter manner style scope node state beside hstart
    rw [scopes_eq, scopes_eq, visit_eq, visit_eq, ← hscope]
    generalize (walk.enter manner scope node state).1 = inner
    generalize (walk.enter manner scope node state).2 = entered at hentered ⊢
    generalize (other.enter style scope node beside).2 = coming at hentered ⊢
    have hparts : ∀ parts : List (Role × Node), parts ⊆ node.parts →
        ∀ {state : State} {beside : Other}, InStep state beside →
        walk.scopesOfParts node inner parts state =
            other.scopesOfParts node inner parts beside ∧
          InStep (walk.visitParts node inner parts state)
            (other.visitParts node inner parts beside) := by
      intro parts hsubset
      induction parts with
      | nil => exact fun hsame => ⟨rfl, hsame⟩
      | cons part parts ihParts =>
          intro state beside hsame
          obtain ⟨hpart, hothers⟩ := List.cons_subset.mp hsubset
          obtain ⟨hfirst, hnext⟩ := ih part hpart (walk.manner node part.1)
            (other.manner node part.1) inner hsame
          obtain ⟨hrest, hend⟩ := ihParts hothers hnext
          exact ⟨by rw [scopesOfParts, scopesOfParts, hfirst, hrest], hend⟩
    obtain ⟨hsame, hend⟩ := hparts node.parts (List.Subset.refl _) hentered
    exact ⟨by rw [hsame], hend⟩

end TreeWalk

end Bundler
