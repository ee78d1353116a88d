import Bundler.Token.Basic

/-!
# Operators

Every operator with how tightly it binds and to which side it groups.  Eighteen
levels of precedence run from the comma, which binds least, to member access
and calls.  The alternate of a conditional and `yield` bind like assignments.
-/

namespace Bundler

inductive Operator
  | addition | assignment | assignmentAddition | assignmentBitwiseAnd
  | assignmentBitwiseLeftShift | assignmentBitwiseOr
  | assignmentBitwiseRightShift | assignmentBitwiseUnsignedRightShift
  | assignmentBitwiseXor | assignmentDivision | assignmentExponentiation
  | assignmentLogicalAnd | assignmentLogicalOr | assignmentMultiplication
  | assignmentNullishCoalescing | assignmentRemainder | assignmentSubtraction
  | await | bitwiseAnd | bitwiseLeftShift | bitwiseNot | bitwiseOr
  | bitwiseRightShift | bitwiseUnsignedRightShift | bitwiseXor | call | comma
  | computedMemberAccess | conditional | conditionalAlternate | delete
  | division | equality | exponentiation | greaterThan | greaterThanOrEqual
  | in_ | inequality | instanceof | lessThan | lessThanOrEqual | logicalAnd
  | logicalNot | logicalOr | memberAccess | multiplication | new
  | nullishCoalescing | optionalChainingMemberAccess
  | optionalChainingComputedMemberAccess | optionalChainingCall
  | postfixDecrement | postfixIncrement | prefixDecrement | prefixIncrement
  | remainder | strictEquality | strictInequality | subtraction | typeof
  | unaryNegation | unaryPlus | void | yield | yieldDelegated
  deriving DecidableEq

namespace Operator

/-- A greater precedence binds tighter. -/
def precedence : Operator → Nat
  | .memberAccess | .computedMemberAccess | .call
  | .optionalChainingMemberAccess | .optionalChainingComputedMemberAccess
  | .optionalChainingCall => 18
  | .new => 17
  | .postfixIncrement | .postfixDecrement => 16
  | .logicalNot | .bitwiseNot | .unaryPlus | .unaryNegation
  | .prefixIncrement | .prefixDecrement | .typeof | .void | .delete | .await
    => 15
  | .exponentiation => 14
  | .multiplication | .division | .remainder => 13
  | .addition | .subtraction => 12
  | .bitwiseLeftShift | .bitwiseRightShift | .bitwiseUnsignedRightShift => 11
  | .lessThan | .lessThanOrEqual | .greaterThan | .greaterThanOrEqual | .in_
  | .instanceof => 10
  | .equality | .inequality | .strictEquality | .strictInequality => 9
  | .bitwiseAnd => 8
  | .bitwiseXor => 7
  | .bitwiseOr => 6
  | .logicalAnd => 5
  | .logicalOr | .nullishCoalescing => 4
  | .conditional => 3
  | .assignment | .assignmentAddition | .assignmentBitwiseAnd
  | .assignmentBitwiseLeftShift | .assignmentBitwiseOr
  | .assignmentBitwiseRightShift | .assignmentBitwiseUnsignedRightShift
  | .assignmentBitwiseXor | .assignmentDivision | .assignmentExponentiation
  | .assignmentLogicalAnd | .assignmentLogicalOr | .assignmentMultiplication
  | .assignmentNullishCoalescing | .assignmentRemainder
  | .assignmentSubtraction | .conditionalAlternate | .yield | .yieldDelegated
    => 2
  | .comma => 1

/-- Whether operators of equal precedence group to the right. -/
def isRightAssociative : Operator → Bool
  | .new | .logicalNot | .bitwiseNot | .unaryPlus | .unaryNegation
  | .prefixIncrement | .prefixDecrement | .typeof | .void | .delete | .await
  | .exponentiation | .conditional | .assignment | .assignmentAddition
  | .assignmentBitwiseAnd | .assignmentBitwiseLeftShift
  | .assignmentBitwiseOr | .assignmentBitwiseRightShift
  | .assignmentBitwiseUnsignedRightShift | .assignmentBitwiseXor
  | .assignmentDivision | .assignmentExponentiation | .assignmentLogicalAnd
  | .assignmentLogicalOr | .assignmentMultiplication
  | .assignmentNullishCoalescing | .assignmentRemainder
  | .assignmentSubtraction | .conditionalAlternate | .yield | .yieldDelegated => true
  | _ => false

/-- The least precedence of an operator within the right operand. -/
def rightPrecedence (operator : Operator) : Nat :=
  if operator.isRightAssociative then operator.precedence
  else operator.precedence + 1

def isAssignment : Operator → Bool
  | .assignment | .assignmentAddition | .assignmentBitwiseAnd
  | .assignmentBitwiseLeftShift | .assignmentBitwiseOr
  | .assignmentBitwiseRightShift | .assignmentBitwiseUnsignedRightShift
  | .assignmentBitwiseXor | .assignmentDivision | .assignmentExponentiation
  | .assignmentLogicalAnd | .assignmentLogicalOr | .assignmentMultiplication
  | .assignmentNullishCoalescing | .assignmentRemainder
  | .assignmentSubtraction => true
  | _ => false

/-- Unary operators that change their operand or run other code. -/
def isEffectfulUnary : Operator → Bool
  | .await | .delete | .new | .postfixDecrement | .postfixIncrement
  | .prefixDecrement | .prefixIncrement | .yield | .yieldDelegated => true
  | _ => false

/-- What an operator is called in a syntax tree. -/
def label : Operator → String
  | .addition => "Addition"
  | .assignment => "Assignment"
  | .assignmentAddition => "AssignmentAddition"
  | .assignmentBitwiseAnd => "AssignmentBitwiseAnd"
  | .assignmentBitwiseLeftShift => "AssignmentBitwiseLeftShift"
  | .assignmentBitwiseOr => "AssignmentBitwiseOr"
  | .assignmentBitwiseRightShift => "AssignmentBitwiseRightShift"
  | .assignmentBitwiseUnsignedRightShift => "AssignmentBitwiseUnsignedRightShift"
  | .assignmentBitwiseXor => "AssignmentBitwiseXor"
  | .assignmentDivision => "AssignmentDivision"
  | .assignmentExponentiation => "AssignmentExponentiation"
  | .assignmentLogicalAnd => "AssignmentLogicalAnd"
  | .assignmentLogicalOr => "AssignmentLogicalOr"
  | .assignmentMultiplication => "AssignmentMultiplication"
  | .assignmentNullishCoalescing => "AssignmentNullishCoalescing"
  | .assignmentRemainder => "AssignmentRemainder"
  | .assignmentSubtraction => "AssignmentSubtraction"
  | .await => "Await"
  | .bitwiseAnd => "BitwiseAnd"
  | .bitwiseLeftShift => "BitwiseLeftShift"
  | .bitwiseNot => "BitwiseNot"
  | .bitwiseOr => "BitwiseOr"
  | .bitwiseRightShift => "BitwiseRightShift"
  | .bitwiseUnsignedRightShift => "BitwiseUnsignedRightShift"
  | .bitwiseXor => "BitwiseXor"
  | .call => "Call"
  | .comma => "Comma"
  | .computedMemberAccess => "ComputedMemberAccess"
  | .conditional => "Conditional"
  | .conditionalAlternate => "ConditionalAlternate"
  | .delete => "Delete"
  | .division => "Division"
  | .equality => "Equality"
  | .exponentiation => "Exponentiation"
  | .greaterThan => "GreaterThan"
  | .greaterThanOrEqual => "GreaterThanOrEqual"
  | .in_ => "In"
  | .inequality => "Inequality"
  | .instanceof => "Instanceof"
  | .lessThan => "LessThan"
  | .lessThanOrEqual => "LessThanOrEqual"
  | .logicalAnd => "LogicalAnd"
  | .logicalNot => "LogicalNot"
  | .logicalOr => "LogicalOr"
  | .memberAccess => "MemberAccess"
  | .multiplication => "Multiplication"
  | .new => "New"
  | .nullishCoalescing => "NullishCoalescing"
  | .optionalChainingMemberAccess => "OptionalChainingMemberAccess"
  | .optionalChainingComputedMemberAccess => "OptionalChainingComputedMemberAccess"
  | .optionalChainingCall => "OptionalChainingCall"
  | .postfixDecrement => "PostfixDecrement"
  | .postfixIncrement => "PostfixIncrement"
  | .prefixDecrement => "PrefixDecrement"
  | .prefixIncrement => "PrefixIncrement"
  | .remainder => "Remainder"
  | .strictEquality => "StrictEquality"
  | .strictInequality => "StrictInequality"
  | .subtraction => "Subtraction"
  | .typeof => "Typeof"
  | .unaryNegation => "UnaryNegation"
  | .unaryPlus => "UnaryPlus"
  | .void => "Void"
  | .yield => "Yield"
  | .yieldDelegated => "YieldDelegated"

end Operator

namespace Keyword

/-- The operator that a key word writes between its operands. -/
def infixOperator? : Keyword → Option Operator
  | .inWord => some .in_
  | .instanceofWord => some .instanceof
  | _ => none

/-- The operator that a key word writes before its operand. -/
def unaryOperator? : Keyword → Option Operator
  | .awaitWord => some .await
  | .deleteWord => some .delete
  | .newWord => some .new
  | .typeofWord => some .typeof
  | .voidWord => some .void
  | .yieldWord => some .yield
  | _ => none

end Keyword

namespace Punctuator

/-- The operator that a punctuator writes after its first operand. -/
def infixOperator? : Punctuator → Option Operator
  | .ampersand => some .bitwiseAnd
  | .ampersandAmpersand => some .logicalAnd
  | .ampersandAmpersandEquals => some .assignmentLogicalAnd
  | .ampersandEquals => some .assignmentBitwiseAnd
  | .asterisk => some .multiplication
  | .asteriskAsterisk => some .exponentiation
  | .asteriskAsteriskEquals => some .assignmentExponentiation
  | .asteriskEquals => some .assignmentMultiplication
  | .bar => some .bitwiseOr
  | .barBar => some .logicalOr
  | .barBarEquals => some .assignmentLogicalOr
  | .barEquals => some .assignmentBitwiseOr
  | .bracketOpen => some .computedMemberAccess
  | .caret => some .bitwiseXor
  | .caretEquals => some .assignmentBitwiseXor
  | .chevronLeft => some .lessThan
  | .chevronLeftChevronLeft => some .bitwiseLeftShift
  | .chevronLeftChevronLeftEquals => some .assignmentBitwiseLeftShift
  | .chevronLeftEquals => some .lessThanOrEqual
  | .chevronRight => some .greaterThan
  | .chevronRightChevronRight => some .bitwiseRightShift
  | .chevronRightChevronRightChevronRight => some .bitwiseUnsignedRightShift
  | .chevronRightChevronRightChevronRightEquals => some .assignmentBitwiseUnsignedRightShift
  | .chevronRightChevronRightEquals => some .assignmentBitwiseRightShift
  | .chevronRightEquals => some .greaterThanOrEqual
  | .comma => some .comma
  | .dot => some .memberAccess
  | .equals => some .assignment
  | .equalsEquals => some .equality
  | .equalsEqualsEquals => some .strictEquality
  | .exclamationEquals => some .inequality
  | .exclamationEqualsEquals => some .strictInequality
  | .hyphen => some .subtraction
  | .hyphenEquals => some .assignmentSubtraction
  | .parenthesisOpen => some .call
  | .percent => some .remainder
  | .percentEquals => some .assignmentRemainder
  | .plus => some .addition
  | .plusEquals => some .assignmentAddition
  | .question => some .conditional
  | .questionDot => some .optionalChainingMemberAccess
  | .questionDotBracketOpen => some .optionalChainingComputedMemberAccess
  | .questionDotParenthesisOpen => some .optionalChainingCall
  | .questionQuestion => some .nullishCoalescing
  | .questionQuestionEquals => some .assignmentNullishCoalescing
  | .slash => some .division
  | .slashEquals => some .assignmentDivision
  | _ => none

/-- The operator that a punctuator writes before its operand. -/
def unaryOperator? : Punctuator → Option Operator
  | .exclamation => some .logicalNot
  | .hyphen => some .unaryNegation
  | .hyphenHyphen => some .prefixDecrement
  | .plus => some .unaryPlus
  | .plusPlus => some .prefixIncrement
  | .tilde => some .bitwiseNot
  | _ => none

end Punctuator

namespace TokenKind

/-- The operator that a token starts after an operand, if any: a binary one, a
conditional, a call or a member access. -/
def infixOperator? : TokenKind → Option Operator
  | .keyword word => word.infixOperator?
  | .punctuator mark => mark.infixOperator?
  | _ => none

/-- The operator that a token starts before an operand, if any. -/
def unaryOperator? : TokenKind → Option Operator
  | .keyword word => word.unaryOperator?
  | .punctuator mark => mark.unaryOperator?
  | _ => none

end TokenKind

end Bundler
