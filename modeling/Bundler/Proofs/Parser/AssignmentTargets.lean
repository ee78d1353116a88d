import Bundler.Proofs.Parser.Assigns
import Bundler.Proofs.Parser.Reparsing

/-!
# Optional chaining in the targets of assignments

A chain of accesses and calls is built from the left, before it shows that an assignment
follows.  Whether it is a target is then decided by its last link alone: that has to be
an access that is not optional.  What the chain goes on from there is not looked at, so
there may be optional links further in.
-/

namespace Bundler

open Bundler.Parser

/-- Whether the last link of a chain of accesses and calls is an optional one, and what
it goes on from. -/
def Shape.link? {α : Type} : Shape α → Option (Bool × α)
  | .call optional callee _ => some (optional, callee)
  | shape => shape.access?

theorem Shape.link?_of_access? {α : Type} {shape : Shape α} {link : Bool × α}
    (h : shape.access? = some link) : shape.link? = some link := by
  cases shape <;> first | exact h | cases h

namespace Node

/-- Some link of a chain of accesses and calls is an optional one. -/
inductive ChainsOptionally : Node → Prop
  | last {node owner : Node} :
      node.shape.link? = some (true, owner) → ChainsOptionally node
  | within {node owner : Node} {optional : Bool} :
      node.shape.link? = some (optional, owner) → owner.ChainsOptionally →
      ChainsOptionally node

/-- A target without optional chaining: a name, a pattern, if the assignment is a plain
one, or a chain that ends in an access and has no optional link at all. -/
def IsUnbrokenTarget (operator : Operator) (node : Node) : Prop :=
  match node.shape with
  | .identPattern _ => True
  | .arrayPattern _ _ | .objectPattern _ _ => operator = .assignment
  | shape => shape.access?.isSome = true ∧ ¬ node.ChainsOptionally

/-- Behind a link that is not optional it depends on the rest of the chain. -/
theorem chainsOptionally_iff {node owner : Node}
    (h : node.shape.link? = some (false, owner)) :
    node.ChainsOptionally ↔ owner.ChainsOptionally := by
  refine ⟨fun hchain => ?_, .within h⟩
  cases hchain with
  | last hlink => cases h.symm.trans hlink
  | within hlink howner =>
      cases h.symm.trans hlink
      exact howner

theorem IsTarget.of_access {operator : Operator} {target owner : Node}
    (h : target.shape.access? = some (false, owner)) : target.IsTarget operator := by
  obtain ⟨span, shape⟩ := target
  cases shape <;> cases h <;> exact ⟨_, rfl⟩

theorem IsTarget.isUnbrokenTarget_iff {operator : Operator} {target : Node}
    (h : target.IsTarget operator) :
    target.IsUnbrokenTarget operator ↔
      ∀ owner, target.shape.access? = some (false, owner) →
        ¬ owner.ChainsOptionally := by
  obtain ⟨span, shape⟩ := target
  have haccess {owner : Node} (hshape : shape.access? = some (false, owner)) :
      shape.access?.isSome = true ∧ ¬ (mk span shape).ChainsOptionally ↔
        ∀ other, shape.access? = some (false, other) → ¬ other.ChainsOptionally := by
    have hlink : (mk span shape).shape.link? = some (false, owner) :=
      Shape.link?_of_access? hshape
    rw [hshape, chainsOptionally_iff hlink]
    constructor
    · rintro ⟨_, howner⟩ _ ⟨⟩
      exact howner
    · exact fun hothers => ⟨rfl, hothers owner rfl⟩
  cases shape with
  | identPattern => exact ⟨fun _ => nofun, fun _ => trivial⟩
  | arrayPattern => exact ⟨fun _ => nofun, fun _ => h⟩
  | objectPattern => exact ⟨fun _ => nofun, fun _ => h⟩
  | member optional owner =>
      obtain ⟨_, hshape⟩ := h
      exact haccess hshape
  | computedMember optional owner =>
      obtain ⟨_, hshape⟩ := h
      exact haccess hshape
  | _ =>
      obtain ⟨_, hshape⟩ := h
      cases hshape

/-! ### All nodes of a tree -/

theorem preorder_eq (role : Role) (node : Node) :
    node.preorder role =
      (role, node) :: node.parts.flatMap fun part => part.2.preorder part.1 := by
  have hparts : (node.parts.attach.flatMap fun part =>
      part.1.2.events part.1.1) =
        node.parts.flatMap fun part => part.2.events part.1 := by
    conv_rhs => rw [← List.attach_map_subtype_val node.parts, List.flatMap_map]
  rw [preorder, events, hparts, List.filterMap_append, List.filterMap_cons]
  simp [Event.entered?, List.filterMap_flatMap, preorder]

theorem mem_preorder (node : Node) {role : Role} :
    (role, node) ∈ node.preorder role := by
  rw [preorder_eq]
  exact List.mem_cons_self

theorem mem_preorder_of_part {node : Node} {role : Role} {part found : Role × Node}
    (hpart : part ∈ node.parts) (hfound : found ∈ part.2.preorder part.1) :
    found ∈ node.preorder role := by
  rw [preorder_eq]
  exact List.mem_cons_of_mem _ (List.mem_flatMap.mpr ⟨part, hpart, hfound⟩)

/-- The induction is on the size of the tree. -/
theorem Assigns.of_mem_preorder {node : Node} (h : node.Assigns) {role : Role}
    {found : Role × Node} (hfound : found ∈ node.preorder role) :
    found.2.Assigns := by
  rw [preorder_eq] at hfound
  rcases List.mem_cons.mp hfound with rfl | hfound
  · exact h
  · obtain ⟨part, hpart, hfound⟩ := List.mem_flatMap.mp hfound
    exact (h.parts part hpart).of_mem_preorder hfound
termination_by sizeOf node
decreasing_by exact sizeOf_lt_of_mem_parts hpart

theorem Assigns.isTarget {node target : Node} {operator : Operator}
    (h : node.Assigns) (hassigned : node.shape.assigned? = some (operator, target)) :
    target.IsTarget operator := by
  cases h with
  | mk htargets _ => exact htargets _ hassigned

end Node

/-! ### Operands that are refused -/

namespace Grammar

variable {grammar : Grammar} {left owner : Node} {optional : Bool}
  {operator : Operator} {ends : List TokenKind} {lineEnds : Bool}

/-- An access that is not optional is assigned to, whatever it goes on from. -/
theorem operationOn_of_access (hassignment : operator.isAssignment = true)
    (h : left.shape.access? = some (false, owner)) :
    grammar.operationOn left operator ends lineEnds = (do
      let right ←
        grammar.expressionFrom operator.rightPrecedence ends lineEnds
      return spanning left.span right.span (.binary operator left right)) := by
  have htarget : left.toAssignmentTarget operator = .ok left := by
    obtain ⟨span, shape⟩ := left
    cases shape <;> cases h <;> rfl
  exact operationOn_of_target hassignment htarget

/-- A chain that ends otherwise is refused. -/
theorem operationOn_of_link (hassignment : operator.isAssignment = true)
    (h : left.shape.link? = some (optional, owner))
    (haccess : left.shape.access? ≠ some (false, owner)) :
    grammar.operationOn left operator ends lineEnds =
      fail (left.span.error .invalidAssignmentTarget) := by
  have htarget : left.toAssignmentTarget operator =
      .error (left.span.error .invalidAssignmentTarget) := by
    obtain ⟨span, shape⟩ := left
    cases shape with
    | call => rfl
    | member =>
        cases h
        cases optional with
        | false => exact absurd rfl haccess
        | true => rfl
    | computedMember =>
        cases h
        cases optional with
        | false => exact absurd rfl haccess
        | true => rfl
    | _ => cases h
  exact operationOn_of_noTarget hassignment htarget

end Grammar

namespace Program

variable {source : String} {program : Program}

/-- Every assignment in the tree of a program has a target. -/
theorem assigns_of_parse (hparse : parse source = .ok program) :
    ∀ statement ∈ program.statements, statement.Assigns := by
  obtain ⟨last, hrun⟩ := parse_eq_ok_iff.mp ⟨program, hparse, rfl⟩
  have hgrammar := Grammar.assigns_ofDepth .module (2 * source.utf8ByteSize + 4)
  exact Ensures.untilKind hgrammar.statement _ _ _ hrun

/-- What a program assigns to is a name, a pattern, by a plain assignment, or a member
that is not accessed optionally.  It is free of optional chaining exactly if the chain
in front of that last access is, which is not looked at: a chain of accesses and calls
is assigned to exactly if its last link is an access that is not optional, and is refused
as a whole otherwise. -/
theorem assignment_targets (hparse : parse source = .ok program) :
    (∀ statement ∈ program.statements,
      ∀ found ∈ statement.preorder .statement, ∀ operator target,
        found.2.shape.assigned? = some (operator, target) →
        target.IsTarget operator ∧
          (target.IsUnbrokenTarget operator ↔
            ∀ owner, target.shape.access? = some (false, owner) →
              ¬ owner.ChainsOptionally)) ∧
    ∀ (grammar : Grammar) (left owner : Node) (optional : Bool) (operator : Operator)
      (ends : List TokenKind) (lineEnds : Bool), operator.isAssignment = true →
      left.shape.link? = some (optional, owner) →
      (left.shape.access? = some (false, owner) →
        grammar.operationOn left operator ends lineEnds = (do
          let right ←
            grammar.expressionFrom operator.rightPrecedence ends lineEnds
          return Grammar.spanning left.span right.span
            (.binary operator left right))) ∧
      (left.shape.access? ≠ some (false, owner) →
        grammar.operationOn left operator ends lineEnds =
          fail (left.span.error .invalidAssignmentTarget)) := by
  constructor
  · intro statement hstatement found hfound operator target hassigned
    have hassigns :=
      (assigns_of_parse hparse statement hstatement).of_mem_preorder hfound
    have htarget := hassigns.isTarget hassigned
    exact ⟨htarget, htarget.isUnbrokenTarget_iff⟩
  · intro grammar left owner optional operator ends lineEnds hassignment hlink
    exact ⟨Grammar.operationOn_of_access hassignment,
      Grammar.operationOn_of_link hassignment hlink⟩

/-- A chain whose first link is optional and whose last one is not is assigned to. -/
theorem exists_optional_target : ∃ program statement target,
    parse "a?.b.c = 1" = .ok program ∧ statement ∈ program.statements ∧
      (∃ found ∈ statement.preorder .statement,
        found.2.shape.assigned? = some (.assignment, target)) ∧
      ∃ owner, target.shape.access? = some (false, owner) ∧
        owner.ChainsOptionally := by
  have hfacts : ((parse "a?.b.c = 1").toOption.any fun program =>
      program.statements.any fun statement => statement.parts.any fun part =>
        part.2.shape.assigned?.any fun assigned =>
          assigned.1 = .assignment && assigned.2.shape.access?.any fun last =>
            last.1 = false && last.2.shape.access?.any fun first =>
              first.1 = true) = true := by
    decide +kernel
  obtain ⟨program, hparse, hany⟩ := Except.exists_of_any_toOption hfacts
  simp only [List.any_eq_true, Option.any_eq_true, Bool.and_eq_true,
    decide_eq_true_eq] at hany
  obtain ⟨statement, hstatement, ⟨role, node⟩, hpart, ⟨_, target⟩, hassigned, rfl,
    ⟨_, owner⟩, hlast, rfl, ⟨_, first⟩, hfirst, rfl⟩ := hany
  exact ⟨program, statement, target, hparse, hstatement,
    ⟨_, Node.mem_preorder_of_part hpart (Node.mem_preorder node), hassigned⟩,
    owner, hlast, .last (Shape.link?_of_access? hfirst)⟩

/-- The chain `a?.b.c` is a target, but not one without optional chaining. -/
theorem assignment_targets_optionalLink : ∃ program,
    parse "a?.b.c = 1" = .ok program ∧
      ∃ statement ∈ program.statements,
      ∃ found ∈ statement.preorder .statement, ∃ target,
        found.2.shape.assigned? = some (.assignment, target) ∧
        target.IsTarget .assignment ∧ ¬ target.IsUnbrokenTarget .assignment := by
  obtain ⟨program, statement, target, hparse, hstatement,
    ⟨found, hfound, hassigned⟩, owner, haccess, hchain⟩ := exists_optional_target
  obtain ⟨htarget, hiff⟩ := (assignment_targets hparse).1 statement hstatement found
    hfound .assignment target hassigned
  exact ⟨program, hparse, statement, hstatement, found, hfound, target, hassigned,
    htarget, fun hunbroken => hiff.mp hunbroken owner haccess hchain⟩

/-- Not every assignment that is read has a target without optional chaining. -/
theorem not_unbroken_targets : ¬ ∀ (source : String) (program : Program),
    parse source = .ok program → ∀ statement ∈ program.statements,
      ∀ found ∈ statement.preorder .statement, ∀ operator target,
        found.2.shape.assigned? = some (operator, target) →
        target.IsUnbrokenTarget operator := by
  intro hall
  obtain ⟨program, statement, target, hparse, hstatement,
    ⟨found, hfound, hassigned⟩, owner, haccess, hchain⟩ := exists_optional_target
  have hunbroken :=
    hall _ program hparse statement hstatement found hfound _ target hassigned
  exact (Node.IsTarget.of_access haccess).isUnbrokenTarget_iff.mp hunbroken owner
    haccess hchain

end Program

end Bundler
