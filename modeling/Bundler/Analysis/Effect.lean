import Bundler.Tree.Walk

/-!
# Effects of definitions

Whether a top-level statement may be dropped when nothing it defines is used,
because evaluating it runs no code that could have an effect.  The bodies and
parameters of functions are not evaluated when the functions are defined.
-/

namespace Bundler

namespace Shape

variable {α : Type}

/-- Whether evaluating a construct itself may run code or change state, apart
from its parts. -/
def isEffect : Shape α → Bool
  | .binary operator _ _ => operator.isAssignment
  | .unary operator _ => operator.isEffectfulUnary
  | .call _ _ _ | .importCall _ | .tagged _ _ _ | .update _ _ => true
  | _ => false

end Shape

namespace Node

/-- Whether evaluating a node may have an effect. -/
def hasEffect (node : Node) : Bool :=
  match node.shape with
  | .func _ _ _ _ _ => false
  | shape =>
      shape.isEffect || node.parts.attach.any fun part => part.1.2.hasEffect
termination_by sizeOf node
decreasing_by exact sizeOf_lt_of_mem_parts part.2

/-- Whether a member has an effect when its class is defined: a computed key is
evaluated then, and so is the value of a static field. -/
def definingHasEffect (member : Node) : Bool :=
  match member.shape with
  | .classMember key isStatic kind value =>
      let keyHasEffect :=
        match key with
        | .literal _ => false
        | .computed value => value.hasEffect
      keyHasEffect ||
        (isStatic && kind = .field && value.any hasEffect)
  | _ => false

/-- Whether a top-level statement can be dropped when nothing it defines is
used. -/
def isRemovable (statement : Node) : Bool :=
  match statement with
  | .mk _ (.funcDeclaration _ _) | .mk _ (.importFrom _ _ _)
  | .mk _ (.exportAll _ _) | .mk _ (.exportItems _ _) | .mk _ .empty => true
  | .mk _ (.classDeclaration _ heritage members) =>
      !heritage.any hasEffect && !members.any definingHasEffect
  | .mk _ (.varDeclaration _ declarators) =>
      declarators.all fun declarator =>
        !declarator.pattern.hasEffect && !declarator.initial.any hasEffect
  | .mk _ (.exportDefault value) => !value.hasEffect
  | .mk _ (.exportDeclaration _ declaration) => declaration.isRemovable
  | _ => false

end Node

end Bundler
