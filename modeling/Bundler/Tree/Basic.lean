import Bundler.Number.Binary64
import Bundler.Tree.Operator

/-!
# Syntax trees

A node is the range of source it was read from and its shape: what kind of
construct it is, with its parts.  Shapes do not mention nodes, they are generic
in what their parts are.  So each rule about parts is stated once, and a tree
without its ranges, or with more attached to each node, is the same shape over
another type.

Ranges of statements and declarations are exact, so their text can be cut from
the source.  Parentheses leave no node, and the range of an expression does not
include parentheses around it.
-/

namespace Bundler

/-- How a variable declaration is introduced. -/
inductive VarKind
  | constant
  | lexical
  | variable
  deriving DecidableEq

namespace VarKind

/-- Whether the names belong to the enclosing block and not to the function. -/
def isBlockScoped (kind : VarKind) : Bool := kind ≠ .variable

end VarKind

/-- A name as written in an import or export clause; string names are
decoded. -/
inductive ClauseName
  | ident (name : String)
  | string (value : String)
  deriving DecidableEq

namespace ClauseName

def text : ClauseName → String
  | .ident name => name
  | .string value => value

end ClauseName

/-- What a class or object member holds under its key. -/
inductive MemberKind
  | getter
  | setter
  | method
  | field
  deriving DecidableEq

/-- A literal key is a node of its own, a computed one any expression. -/
inductive PropertyKey (α : Type)
  | literal (name : α)
  | computed (value : α)

inductive ArrayElement (α : Type)
  | hole
  | single (value : α)
  | spread (value : α)

inductive PatternElement (α : Type)
  | hole
  | item (target : α) (initial : Option α)

/-- One variable pattern of a declaration. -/
structure Declarator (α : Type) where
  pattern : α
  initial : Option α

inductive FuncBody (α : Type)
  | block (statements : List α)
  /-- The body of an arrow function without braces. -/
  | concise (value : α)

/-- What a loop over an object or an iterable sets at each turn. -/
inductive ForTarget (α : Type)
  | assign (pattern : α)
  | declare (kind : VarKind) (pattern : α)

/-- The first part of the header of a plain loop. -/
inductive ForStart (α : Type)
  | nothing
  | expression (value : α)
  | declare (declaration : α)

/-- The names an import binds besides the default one. -/
inductive ImportNames (α : Type)
  | all (asName : α)
  | items (items : List α)

/-- The construct a node stands for, over parts of type `α`. -/
inductive Shape (α : Type)
  -- Expressions.
  | arrow (func : α)
  | binary (operator : Operator) (left right : α)
  | call (optional : Bool) (callee : α) (arguments : List α)
  | argument (spread : Bool) (value : α)
  | classExpr (name heritage : Option α) (members : List α)
  | computedMember (optional : Bool) (object member : α)
  | conditional (test consequent alternate : α)
  | funcExpr (name : Option α) (func : α)
  | ident (name : String)
  | importCall (source : α)
  | importMeta
  | member (optional : Bool) (object : α) (property : String)
  | newTarget
  | superRef
  /-- A tagged template, with one more text than values. -/
  | tagged (tag : α) (texts : List String) (values : List α)
  | thisRef
  | unary (operator : Operator) (operand : α)
  /-- A postfix increment or decrement. -/
  | update (operator : Operator) (operand : α)
  | array (elements : List (ArrayElement α))
  | bigint (digits : String)
  | boolean (value : Bool)
  | null
  | number (value : Binary64)
  | object (members : List α)
  | regex (text : String)
  | string (value : String)
  /-- A template, with one more text than values. -/
  | template (texts : List String) (values : List α)
  -- Patterns.
  | arrayPattern (elements : List (PatternElement α)) (rest : Option α)
  | identPattern (name : String)
  | objectPattern (properties : List α) (rest : Option α)
  /-- A property of an object pattern.  A shorthand one has its key's name and
  range as its target. -/
  | patternProperty (key : PropertyKey α) (target : α) (shorthand : Bool)
      (initial : Option α)
  -- Members of classes and objects.
  /-- A key that is not computed, decoded, with the kind of its token. -/
  | literalKey (text : String) (kind : TokenKind)
  | property (key : PropertyKey α) (kind : MemberKind) (value : Option α)
  | shorthandProperty (id : α)
  | spreadProperty (value : α)
  | classMember (key : PropertyKey α) (isStatic : Bool) (kind : MemberKind)
      (value : Option α)
  -- Functions.
  | func (isArrow isAsync isGenerator : Bool) (parameters : List α)
      (body : FuncBody α)
  | parameter (isRest : Bool) (pattern : α) (initial : Option α)
  /-- The name of a function or class. -/
  | declaredName (name : String)
  -- Statements.
  | block (statements : List α)
  | breakTo (label : Option String)
  | continueTo (label : Option String)
  | debugger
  | doWhile (condition body : α)
  | empty
  | exportDefault (value : α)
  | exportAll (asName : Option ClauseName) (source : String)
  | exportItems (items : List α) (source : Option String)
  | exportItem (exported asName : ClauseName)
  /-- An exported declaration.  Its own range starts at its first key word, the
  statement's at `export`. -/
  | exportDeclaration (isDefault : Bool) (declaration : α)
  | expressionStatement (value : α)
  | forIn (target : ForTarget α) (object body : α)
  | forOf (isAwait : Bool) (target : ForTarget α) (iterable body : α)
  | forLoop (start : ForStart α) (condition step : Option α) (body : α)
  | forBody (statements : List α)
  | ifElse (test consequent : α) (alternate : Option α)
  | importFrom (defaultName : Option α) (names : Option (ImportNames α))
      (source : String)
  | importItem (imported : ClauseName) (asName : α)
  | labelled (label : String) (body : α)
  | returnValue (value : Option α)
  | switch (subject : α) (cases : List α)
  /-- A case of a switch; the default one has no test. -/
  | switchCase (test : Option α) (statements : List α)
  | throwValue (value : α)
  | tryCatch (body : α) (handler finalizer : Option α)
  | catchClause (parameter : Option α) (statements : List α)
  | whileLoop (condition body : α)
  | withObject (object body : α)
  | classDeclaration (name : α) (heritage : Option α) (members : List α)
  | funcDeclaration (name func : α)
  | varDeclaration (kind : VarKind) (declarators : List (Declarator α))

inductive Node
  | mk (span : Span) (shape : Shape Node)

namespace Node

def span : Node → Span
  | .mk span _ => span

def shape : Node → Shape Node
  | .mk _ shape => shape

end Node

/-- A whole module: its top-level statements and all its comments, in order. -/
structure Program where
  span : Span
  statements : List Node
  comments : List Comment

end Bundler
