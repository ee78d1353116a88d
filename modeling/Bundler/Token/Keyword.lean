/-!
# Key words

The words with a meaning of their own.  Some of them are reserved, the others
only matter in certain places and may otherwise name things; the three literal
words `true`, `false` and `null` are key words too.
-/

namespace Bundler

inductive Keyword
  | asWord | asyncWord | awaitWord | breakWord | caseWord | catchWord
  | classWord | constWord | continueWord | debuggerWord | defaultWord
  | deleteWord | doWord | elseWord | exportWord | extendsWord | finallyWord
  | forWord | fromWord | functionWord | getWord | ifWord | importWord
  | inWord | instanceofWord | letWord | newWord | ofWord | returnWord
  | setWord | staticWord | superWord | switchWord | thisWord | throwWord
  | tryWord | typeofWord | varWord | voidWord | whileWord | withWord
  | yieldWord | falseWord | nullWord | trueWord
  deriving DecidableEq

namespace Keyword

/-- Every key word once. -/
def all : List Keyword :=
  [.asWord, .asyncWord, .awaitWord, .breakWord, .caseWord, .catchWord,
   .classWord, .constWord, .continueWord, .debuggerWord, .defaultWord,
   .deleteWord, .doWord, .elseWord, .exportWord, .extendsWord, .finallyWord,
   .forWord, .fromWord, .functionWord, .getWord, .ifWord, .importWord,
   .inWord, .instanceofWord, .letWord, .newWord, .ofWord, .returnWord,
   .setWord, .staticWord, .superWord, .switchWord, .thisWord, .throwWord,
   .tryWord, .typeofWord, .varWord, .voidWord, .whileWord, .withWord,
   .yieldWord, .falseWord, .nullWord, .trueWord]

/-- How a key word is written. -/
def text : Keyword → String
  | .asWord => "as"
  | .asyncWord => "async"
  | .awaitWord => "await"
  | .breakWord => "break"
  | .caseWord => "case"
  | .catchWord => "catch"
  | .classWord => "class"
  | .constWord => "const"
  | .continueWord => "continue"
  | .debuggerWord => "debugger"
  | .defaultWord => "default"
  | .deleteWord => "delete"
  | .doWord => "do"
  | .elseWord => "else"
  | .exportWord => "export"
  | .extendsWord => "extends"
  | .finallyWord => "finally"
  | .forWord => "for"
  | .fromWord => "from"
  | .functionWord => "function"
  | .getWord => "get"
  | .ifWord => "if"
  | .importWord => "import"
  | .inWord => "in"
  | .instanceofWord => "instanceof"
  | .letWord => "let"
  | .newWord => "new"
  | .ofWord => "of"
  | .returnWord => "return"
  | .setWord => "set"
  | .staticWord => "static"
  | .superWord => "super"
  | .switchWord => "switch"
  | .thisWord => "this"
  | .throwWord => "throw"
  | .tryWord => "try"
  | .typeofWord => "typeof"
  | .varWord => "var"
  | .voidWord => "void"
  | .whileWord => "while"
  | .withWord => "with"
  | .yieldWord => "yield"
  | .falseWord => "false"
  | .nullWord => "null"
  | .trueWord => "true"

/-- The key word written as `word`, if there is one. -/
def ofText? (word : String) : Option Keyword :=
  all.find? fun keyword => keyword.text == word

/-- How diagnostics call a key word. -/
def label : Keyword → String
  | .falseWord => "LiteralFalse"
  | .nullWord => "LiteralNull"
  | .trueWord => "LiteralTrue"
  | keyword => "Keyword" ++ keyword.text.capitalize

/-- Whether a key word may name a binding in every context. -/
def isUnreserved : Keyword → Bool
  | .asWord | .asyncWord | .fromWord | .getWord | .letWord | .ofWord | .setWord
  | .staticWord => true
  | _ => false

end Keyword

end Bundler
