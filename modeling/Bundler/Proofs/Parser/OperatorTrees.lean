import Bundler.Proofs.Lexer.SpacedWords
import Bundler.Proofs.Parser.ExpressionRuns

/-!
# Operator expressions in print

Trees of operators over names, and how they are written: with a space between
all tokens, and with parentheses around just those operands that bind less than
their place asks for.  An operator that groups to the left takes operands of its
own precedence there, and one that groups to the right takes them on its right.
-/

namespace Bundler

namespace Operator

/-- The least precedence of an operator within the left operand. -/
def leftPrecedence (operator : Operator) : Nat :=
  if operator.isRightAssociative then operator.precedence + 1
  else operator.precedence

/-- Operators of one precedence group to the same side. -/
theorem isRightAssociative_eq (operator : Operator) :
    operator.isRightAssociative =
      [2, 3, 14, 15, 17].contains operator.precedence := by
  cases operator <;> rfl

theorem precedence_le_rightPrecedence (operator : Operator) :
    operator.precedence ≤ operator.rightPrecedence := by
  rw [rightPrecedence]
  split
  · exact Nat.le_refl _
  · exact Nat.le_succ _

theorem precedence_le_leftPrecedence (operator : Operator) :
    operator.precedence ≤ operator.leftPrecedence := by
  rw [leftPrecedence]
  split
  · exact Nat.le_succ _
  · exact Nat.le_refl _

theorem precedence_le (operator : Operator) : operator.precedence ≤ 18 := by
  cases operator <;> decide

/-- An operator that has another one in its left operand does not go into the
right operand of that one. -/
theorem lt_rightPrecedence {operator other : Operator}
    (h : operator.leftPrecedence ≤ other.precedence) :
    operator.precedence < other.rightPrecedence := by
  have hsame := operator.isRightAssociative_eq
  have hother := other.isRightAssociative_eq
  rw [leftPrecedence] at h
  rw [rightPrecedence]
  split at h
  · split
    · exact h
    · exact Nat.lt_of_lt_of_le h (Nat.le_succ _)
  · split
    · refine Nat.lt_of_le_of_ne h fun heq => ?_
      rw [heq] at hsame
      simp_all
    · exact Nat.lt_succ_of_le h

/-- Operators that join two expressions and assign to neither. -/
def joins (operator : Operator) : Bool :=
  !operator.isAssignment &&
    match operator with
    | .call | .optionalChainingCall | .computedMemberAccess
    | .optionalChainingComputedMemberAccess | .memberAccess
    | .optionalChainingMemberAccess | .conditional => false
    | _ => true

end Operator

/-- Operators in front of an operand, but for those that yield. -/
structure UnaryOperator where
  word : Word
  operator : Operator
  isWritten : word.kind.unaryOperator? = some operator
  isNoYield : operator ≠ .yield

/-- Operators between operands that do not assign. -/
structure InfixOperator where
  word : Word
  operator : Operator
  isWritten : word.kind.infixOperator? = some operator
  joins : operator.joins = true

structure AssignmentOperator where
  word : Word
  operator : Operator
  isWritten : word.kind.infixOperator? = some operator
  isAssignment : operator.isAssignment = true

/-- Operators behind an operand. -/
inductive UpdateOperator
  | increment
  | decrement

namespace UpdateOperator

def word : UpdateOperator → Word
  | increment => .mark .plusPlus
  | decrement => .mark .hyphenHyphen

def operator : UpdateOperator → Operator
  | increment => .postfixIncrement
  | decrement => .postfixDecrement

end UpdateOperator

/-- Expressions of operators.  An argument of a call may be spread. -/
inductive OperatorTree
  | name (name : PlainName)
  | unary (operator : UnaryOperator) (operand : OperatorTree)
  | update (operator : UpdateOperator) (operand : OperatorTree)
  | binary (operator : InfixOperator) (left right : OperatorTree)
  | assignment (operator : AssignmentOperator) (target : PlainName)
      (value : OperatorTree)
  | conditional (test consequent alternate : OperatorTree)
  | member (object : OperatorTree) (property : PlainName)
  | computedMember (object key : OperatorTree)
  | call (callee : OperatorTree) (arguments : List (Bool × OperatorTree))

namespace OperatorTree

/-- The precedence of the operator that is applied last.  A name binds tighter
than all of them. -/
def precedence : OperatorTree → Nat
  | name _ => 19
  | unary operator _ => operator.operator.precedence
  | update operator _ => operator.operator.precedence
  | binary operator _ _ => operator.operator.precedence
  | assignment operator _ _ => operator.operator.precedence
  | conditional _ _ _ => Operator.conditional.precedence
  | member _ _ => Operator.memberAccess.precedence
  | computedMember _ _ => Operator.computedMemberAccess.precedence
  | call _ _ => Operator.call.precedence

/-- Parentheses around the words of a tree, if it binds less than it has to. -/
def enclosed (least : Nat) (tree : OperatorTree) (words : List Word) :
    List Word :=
  if tree.precedence < least then
    .mark .parenthesisOpen :: (words ++ [.mark .parenthesisClose])
  else words

mutual

def words : OperatorTree → List Word
  | name plain => [.name plain]
  | unary operator operand =>
      operator.word ::
        operand.enclosed operator.operator.rightPrecedence operand.words
  | update operator operand =>
      operand.enclosed operator.operator.leftPrecedence operand.words ++
        [operator.word]
  | binary operator left right =>
      left.enclosed operator.operator.leftPrecedence left.words ++
        operator.word ::
          right.enclosed operator.operator.rightPrecedence right.words
  | assignment operator target value =>
      .name target :: operator.word ::
        value.enclosed operator.operator.rightPrecedence value.words
  | conditional test consequent alternate =>
      test.enclosed Operator.conditional.leftPrecedence test.words ++
        .mark .question :: (consequent.words ++ .mark .colon ::
          alternate.enclosed Operator.conditionalAlternate.precedence
            alternate.words)
  | member object property =>
      object.enclosed Operator.memberAccess.leftPrecedence object.words ++
        [.mark .dot, .name property]
  | computedMember object key =>
      object.enclosed Operator.computedMemberAccess.leftPrecedence
        object.words ++
          .mark .bracketOpen :: (key.words ++ [.mark .bracketClose])
  | call callee arguments =>
      callee.enclosed Operator.call.leftPrecedence callee.words ++
        .mark .parenthesisOpen ::
          (argumentWords arguments ++ [.mark .parenthesisClose])

/-- Arguments with commas between them.  A comma within an argument is
enclosed. -/
def argumentWords : List (Bool × OperatorTree) → List Word
  | [] => []
  | (isSpread, value) :: arguments =>
      (if isSpread then [.mark .dotDotDot] else []) ++
        (value.enclosed Operator.comma.rightPrecedence value.words ++
          match arguments with
          | [] => []
          | _ :: _ => .mark .comma :: argumentWords arguments)

end

/-- An expression on one line, with a space between all tokens. -/
def print (tree : OperatorTree) : String :=
  String.ofList (Word.spaced tree.words)

/-- An operand of the same precedence is enclosed on the right only. -/
example :
    let a : OperatorTree := .name ⟨'a', [], rfl, rfl, rfl⟩
    let minus : InfixOperator := ⟨.mark .hyphen, .subtraction, rfl, rfl⟩
    print (.binary minus (.binary minus a a) (.binary minus a a)) =
      "a - a - ( a - a )" := by
  decide

/-! ### Edges -/

/-- What follows a tree has to bind less than this not to be taken for a part of
its last operand. -/
def edge : OperatorTree → Nat
  | unary operator _ => operator.operator.rightPrecedence
  | binary operator _ _ => operator.operator.rightPrecedence
  | assignment operator _ _ => operator.operator.rightPrecedence
  | conditional _ _ _ => Operator.conditionalAlternate.precedence
  | _ => 19

theorem one_le_precedence (tree : OperatorTree) : 1 ≤ tree.precedence := by
  cases tree
  all_goals
    rw [precedence]
    first | exact Operator.one_le_precedence _ | decide

/-- Only the edge of a conditional binds less than the tree itself. -/
theorem precedence_le_edge (tree : OperatorTree) :
    tree.precedence ≤ tree.edge ∨ tree.precedence = 3 ∧ tree.edge = 2 := by
  cases tree with
  | conditional => exact .inr ⟨rfl, rfl⟩
  | unary => exact .inl (Operator.precedence_le_rightPrecedence _)
  | binary => exact .inl (Operator.precedence_le_rightPrecedence _)
  | assignment => exact .inl (Operator.precedence_le_rightPrecedence _)
  | name => exact .inl (Nat.le_refl 19)
  | update operator =>
      exact .inl (Nat.le_succ_of_le operator.operator.precedence_le)
  | _ => exact .inl (Nat.le_succ 18)

/-- Where a tree may stand on the right, what may follow there does not go into
it. -/
theorem le_edge {tree : OperatorTree} {least : Nat}
    (h : least ≤ tree.precedence) (hleast : least ≠ 3) :
    least ≤ tree.edge := by
  rcases tree.precedence_le_edge with hedge | ⟨hprecedence, hedge⟩
  · exact Nat.le_trans h hedge
  · omega

/-- Where a tree may stand on the left of an operator, the operator does not go
into it. -/
theorem lt_edge {tree : OperatorTree} {operator : Operator}
    (h : operator.leftPrecedence ≤ tree.precedence)
    (hoperator : operator.precedence ≠ 2) :
    operator.precedence < tree.edge := by
  cases tree with
  | unary => exact Operator.lt_rightPrecedence h
  | binary => exact Operator.lt_rightPrecedence h
  | assignment => exact Operator.lt_rightPrecedence h
  | conditional =>
      have hright : operator.precedence ≠ 3 := by
        intro hthree
        rw [Operator.leftPrecedence, operator.isRightAssociative_eq,
          hthree] at h
        exact absurd h (Nat.not_succ_le_self 3)
      have hle : operator.precedence ≤ 3 :=
        Nat.le_trans operator.precedence_le_leftPrecedence h
      change operator.precedence < 2
      omega
  | _ => exact Nat.lt_succ_of_le operator.precedence_le

/-- Words that start with none of the marks that are asked for in front of an
expression. -/
def StartsOperand (words : List Word) : Prop :=
  ∃ word others, words = word :: others ∧
    ∀ mark ∈ [Punctuator.dot, .dotDotDot, .parenthesisClose],
      word.kind ≠ .punctuator mark

theorem StartsOperand.append {words : List Word} (h : StartsOperand words)
    (others : List Word) : StartsOperand (words ++ others) := by
  obtain ⟨word, rest, rfl, hword⟩ := h
  exact ⟨word, rest ++ others, rfl, hword⟩

theorem StartsOperand.enclosed {tree : OperatorTree} {words : List Word}
    (h : StartsOperand words) (least : Nat) :
    StartsOperand (tree.enclosed least words) := by
  rw [OperatorTree.enclosed]
  split
  · exact ⟨_, _, rfl, by decide⟩
  · exact h

theorem startsOperand_words : (tree : OperatorTree) → StartsOperand tree.words
  | name _ => by
      rw [words]
      exact ⟨_, _, rfl, fun _ _ h => by cases h⟩
  | unary operator _ => by
      rw [words]
      refine ⟨_, _, rfl, fun mark hmark h => ?_⟩
      have hwritten := operator.isWritten
      rw [h] at hwritten
      simp only [List.mem_cons, List.not_mem_nil, or_false] at hmark
      rcases hmark with rfl | rfl | rfl <;> cases hwritten
  | update _ operand => by
      rw [words]
      exact (operand.startsOperand_words.enclosed _).append _
  | binary _ left _ => by
      rw [words]
      exact (left.startsOperand_words.enclosed _).append _
  | assignment _ _ _ => by
      rw [words]
      exact ⟨_, _, rfl, fun _ _ h => by cases h⟩
  | conditional test _ _ => by
      rw [words]
      exact (test.startsOperand_words.enclosed _).append _
  | member object _ => by
      rw [words]
      exact (object.startsOperand_words.enclosed _).append _
  | computedMember object _ => by
      rw [words]
      exact (object.startsOperand_words.enclosed _).append _
  | call callee _ => by
      rw [words]
      exact (callee.startsOperand_words.enclosed _).append _

theorem exists_argumentWords_cons (isSpread : Bool) (tree : OperatorTree)
    (arguments : List (Bool × OperatorTree)) :
    ∃ word others, argumentWords ((isSpread, tree) :: arguments) =
        word :: others ∧
      word.kind ≠ .punctuator .parenthesisClose := by
  unfold argumentWords
  cases isSpread with
  | true => exact ⟨_, _, rfl, nofun⟩
  | false =>
      obtain ⟨word, others, hwords, hword⟩ :=
        (tree.startsOperand_words.enclosed _).append _
      exact ⟨word, others, hwords, hword .parenthesisClose (by decide)⟩

end OperatorTree

namespace Node

mutual

/-- A node is a tree, wherever its parts are in a source. -/
inductive Shows : Node → OperatorTree → Prop
  | name (span : Span) (name : PlainName) :
      Shows (.mk span (.ident (String.ofList name.text))) (.name name)
  | unary {operand : Node} {tree : OperatorTree} (span : Span)
      (operator : UnaryOperator) : Shows operand tree →
      Shows (.mk span (.unary operator.operator operand))
        (.unary operator tree)
  | update {operand : Node} {tree : OperatorTree} (span : Span)
      (operator : UpdateOperator) : Shows operand tree →
      Shows (.mk span (.update operator.operator operand))
        (.update operator tree)
  | binary {left right : Node} {leftTree rightTree : OperatorTree}
      (span : Span) (operator : InfixOperator) :
      Shows left leftTree → Shows right rightTree →
      Shows (.mk span (.binary operator.operator left right))
        (.binary operator leftTree rightTree)
  | assignment {value : Node} {tree : OperatorTree} (span targetSpan : Span)
      (operator : AssignmentOperator) (target : PlainName) :
      Shows value tree →
      Shows (.mk span (.binary operator.operator
          (.mk targetSpan (.identPattern (String.ofList target.text))) value))
        (.assignment operator target tree)
  | conditional {test consequent alternate : Node}
      {testTree consequentTree alternateTree : OperatorTree} (span : Span) :
      Shows test testTree → Shows consequent consequentTree →
      Shows alternate alternateTree →
      Shows (.mk span (.conditional test consequent alternate))
        (.conditional testTree consequentTree alternateTree)
  | member {object : Node} {tree : OperatorTree} (span : Span)
      (property : PlainName) : Shows object tree →
      Shows (.mk span (.member false object (String.ofList property.text)))
        (.member tree property)
  | computedMember {object key : Node} {objectTree keyTree : OperatorTree}
      (span : Span) : Shows object objectTree → Shows key keyTree →
      Shows (.mk span (.computedMember false object key))
        (.computedMember objectTree keyTree)
  | call {callee : Node} {tree : OperatorTree} {arguments : List Node}
      {argumentTrees : List (Bool × OperatorTree)} (span : Span) :
      Shows callee tree → List.Forall₂ ShowsArgument arguments argumentTrees →
      Shows (.mk span (.call false callee arguments))
        (.call tree argumentTrees)

inductive ShowsArgument : Node → Bool × OperatorTree → Prop
  | mk {value : Node} {tree : OperatorTree} (span : Span) (isSpread : Bool) :
      Shows value tree →
      ShowsArgument (.mk span (.argument isSpread value)) (isSpread, tree)

end

end Node

end Bundler
