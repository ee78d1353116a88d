import Bundler.Parser.Error
import Bundler.Tree.Basic

/-!
# Assignment targets

What stands left of an assignment is first read as an expression.  Here it is
turned into the pattern it means, or refused.
-/

namespace Bundler

namespace Node

/-- Why a node at a place is no target. -/
def refuse {α : Type} (span : Span) : Except SyntaxError α :=
  .error (span.error .invalidAssignmentTarget)

/-- Whether the key of a property is at the place of its target, as in a
shorthand. -/
def isShorthand (key : PropertyKey Node) (target : Node) : Bool :=
  match key with
  | .literal name => name.span = target.span
  | .computed _ => false

mutual

/-- The pattern that an expression means as a target of an assignment. -/
def toPattern (node : Node) : Except SyntaxError Node :=
  match node with
  | .mk span (.array elements) => do
      let (elements, rest) ← elementsToPattern span elements
      return .mk span (.arrayPattern elements rest)
  | .mk span (.object members) => do
      let (properties, rest) ← membersToPattern members
      return .mk span (.objectPattern properties rest)
  | .mk span (.ident name) => .ok (.mk span (.identPattern name))
  | .mk span (.identPattern name) => .ok (.mk span (.identPattern name))
  | .mk span (.arrayPattern elements rest) =>
      .ok (.mk span (.arrayPattern elements rest))
  | .mk span (.objectPattern properties rest) =>
      .ok (.mk span (.objectPattern properties rest))
  | .mk span _ => refuse span
termination_by 2 * sizeOf node

/-- Splits off a default written like an assignment. -/
def toDefaultedPattern (node : Node) :
    Except SyntaxError (Node × Option Node) :=
  match node with
  | .mk span (.binary operator left right) =>
      if operator = .assignment then do return (← toPattern left, some right)
      else refuse span
  | node => do return (← toPattern node, none)
termination_by 2 * sizeOf node + 1

/-- The elements of an array literal in a range as those of a pattern.  Nothing
may follow a rest element. -/
def elementsToPattern (span : Span) (elements : List (ArrayElement Node)) :
    Except SyntaxError (List (PatternElement Node) × Option Node) :=
  match elements with
  | [] => .ok ([], none)
  | .hole :: others => do
      let (others, rest) ← elementsToPattern span others
      return (.hole :: others, rest)
  | .single value :: others => do
      let (target, initial) ← toDefaultedPattern value
      let (others, rest) ← elementsToPattern span others
      return (.item target initial :: others, rest)
  | .spread value :: others => do
      let rest ← toPattern value
      if others.isEmpty then return ([], some rest) else refuse span
termination_by 2 * sizeOf elements

/-- The members of an object literal as the properties of a pattern.  Nothing
may follow a rest member, which has to be a name. -/
def membersToPattern (members : List Node) :
    Except SyntaxError (List Node × Option Node) :=
  match members with
  | [] => .ok ([], none)
  | .mk span (.property key .field (some value)) :: others => do
      let (target, initial) ← toDefaultedPattern value
      let property := .patternProperty key target (isShorthand key target)
        initial
      let (others, rest) ← membersToPattern others
      return (.mk span property :: others, rest)
  | .mk span (.shorthandProperty (.mk idSpan (.ident name))) :: others => do
      let key := .literal (.mk idSpan (.literalKey name .identifier))
      let target := .mk idSpan (.identPattern name)
      let (others, rest) ← membersToPattern others
      return (.mk span (.patternProperty key target true none) :: others, rest)
  | .mk _ (.spreadProperty value) :: others => do
      match ← toPattern value with
      | .mk span (.identPattern name) =>
          match others with
          | [] => return ([], some (.mk span (.identPattern name)))
          | next :: _ => refuse next.span
      | .mk span _ => refuse span
  | .mk span _ :: _ => refuse span
termination_by 2 * sizeOf members

end

/-- The left operand of an assignment.  Only plain assignment takes patterns
other than names; a member access must not be an optional one. -/
def toAssignmentTarget (operator : Operator) (node : Node) :
    Except SyntaxError Node :=
  match node.shape with
  | .ident _ => toPattern node
  | .array _ | .object _ =>
      if operator = .assignment then toPattern node else refuse node.span
  | .computedMember false _ _ | .member false _ _ => .ok node
  | _ => refuse node.span

end Node

end Bundler
