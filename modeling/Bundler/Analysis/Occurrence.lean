import Bundler.Tree.Walk

/-!
# Occurrences of names

The names that patterns bind and that assignments write, each with the place
where it stands.
-/

namespace Bundler

/-- A name at a place in the source. -/
structure Occurrence where
  name : String
  span : Span
  deriving DecidableEq

namespace Node

/-- The names that a pattern binds, in source order.  Keys and initial values
of a pattern bind nothing. -/
def boundNames (node : Node) : List Occurrence :=
  match node.shape with
  | .identPattern name => [⟨name, node.span⟩]
  | .arrayPattern _ _ | .objectPattern _ _ | .patternProperty _ _ _ _ =>
      node.parts.attach.flatMap fun part =>
        if part.1.1 = .expression then [] else part.1.2.boundNames
  | _ => []
termination_by sizeOf node
decreasing_by all_goals exact sizeOf_lt_of_mem_parts part.2

/-- The names that an assignment to an expression writes.  Writing a member
writes the object it is a member of. -/
def writtenNames : Node → List Occurrence
  | .mk span (.ident name) => [⟨name, span⟩]
  | .mk _ (.member _ owner _) => owner.writtenNames
  | .mk _ (.computedMember _ owner _) => owner.writtenNames
  | node => node.boundNames

/-- The names that the declarators of a variable declaration bind. -/
def declaredNames (declarators : List (Declarator Node)) : List Occurrence :=
  declarators.flatMap (·.pattern.boundNames)

/-- The name of a function or class where it is declared. -/
def declaredName? (node : Node) : Option Occurrence :=
  match node.shape with
  | .declaredName name => some ⟨name, node.span⟩
  | _ => none

end Node

end Bundler
