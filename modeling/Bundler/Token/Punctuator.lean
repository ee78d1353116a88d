/-!
# Punctuators

The tokens made of punctuation only.  `all` lists longer spellings before
shorter ones, so the first one that a text starts with is the longest.
-/

namespace Bundler

inductive Punctuator
  | ampersand | ampersandAmpersand | ampersandAmpersandEquals
  | ampersandEquals | asterisk | asteriskAsterisk | asteriskAsteriskEquals
  | asteriskEquals | bar | barBar | barBarEquals | barEquals | braceClose
  | braceOpen | bracketClose | bracketOpen | caret | caretEquals
  | chevronLeft | chevronLeftChevronLeft | chevronLeftChevronLeftEquals
  | chevronLeftEquals | chevronRight | chevronRightChevronRight
  | chevronRightChevronRightChevronRight
  | chevronRightChevronRightChevronRightEquals
  | chevronRightChevronRightEquals | chevronRightEquals | colon | comma | dot
  | dotDotDot | equals | equalsChevronRight | equalsEquals
  | equalsEqualsEquals | exclamation | exclamationEquals
  | exclamationEqualsEquals | hyphen | hyphenEquals | hyphenHyphen
  | parenthesisClose | parenthesisOpen | percent | percentEquals | plus
  | plusEquals | plusPlus | question | questionDot | questionDotBracketOpen
  | questionDotParenthesisOpen | questionQuestion | questionQuestionEquals
  | semicolon | slash | slashEquals | tilde
  deriving DecidableEq

namespace Punctuator

/-- Every punctuator once, longest spelling first. -/
def all : List Punctuator :=
  [.chevronRightChevronRightChevronRightEquals, .ampersandAmpersandEquals,
   .asteriskAsteriskEquals, .barBarEquals, .chevronLeftChevronLeftEquals,
   .chevronRightChevronRightChevronRight, .chevronRightChevronRightEquals,
   .dotDotDot, .equalsEqualsEquals, .exclamationEqualsEquals,
   .questionDotBracketOpen, .questionDotParenthesisOpen,
   .questionQuestionEquals, .ampersandAmpersand, .ampersandEquals,
   .asteriskAsterisk, .asteriskEquals, .barBar, .barEquals, .caretEquals,
   .chevronLeftChevronLeft, .chevronLeftEquals, .chevronRightChevronRight,
   .chevronRightEquals, .equalsChevronRight, .equalsEquals,
   .exclamationEquals, .hyphenEquals, .hyphenHyphen, .percentEquals,
   .plusEquals, .plusPlus, .questionDot, .questionQuestion, .slashEquals,
   .ampersand, .asterisk, .bar, .braceClose, .braceOpen, .bracketClose,
   .bracketOpen, .caret, .chevronLeft, .chevronRight, .colon, .comma, .dot,
   .equals, .exclamation, .hyphen, .parenthesisClose, .parenthesisOpen,
   .percent, .plus, .question, .semicolon, .slash, .tilde]

/-- How a punctuator is written. -/
def text : Punctuator → String
  | .ampersand => "&"
  | .ampersandAmpersand => "&&"
  | .ampersandAmpersandEquals => "&&="
  | .ampersandEquals => "&="
  | .asterisk => "*"
  | .asteriskAsterisk => "**"
  | .asteriskAsteriskEquals => "**="
  | .asteriskEquals => "*="
  | .bar => "|"
  | .barBar => "||"
  | .barBarEquals => "||="
  | .barEquals => "|="
  | .braceClose => "\x7d"
  | .braceOpen => "\x7b"
  | .bracketClose => "]"
  | .bracketOpen => "["
  | .caret => "^"
  | .caretEquals => "^="
  | .chevronLeft => "<"
  | .chevronLeftChevronLeft => "<<"
  | .chevronLeftChevronLeftEquals => "<<="
  | .chevronLeftEquals => "<="
  | .chevronRight => ">"
  | .chevronRightChevronRight => ">>"
  | .chevronRightChevronRightChevronRight => ">>>"
  | .chevronRightChevronRightChevronRightEquals => ">>>="
  | .chevronRightChevronRightEquals => ">>="
  | .chevronRightEquals => ">="
  | .colon => ":"
  | .comma => ","
  | .dot => "."
  | .dotDotDot => "..."
  | .equals => "="
  | .equalsChevronRight => "=>"
  | .equalsEquals => "=="
  | .equalsEqualsEquals => "==="
  | .exclamation => "!"
  | .exclamationEquals => "!="
  | .exclamationEqualsEquals => "!=="
  | .hyphen => "-"
  | .hyphenEquals => "-="
  | .hyphenHyphen => "--"
  | .parenthesisClose => ")"
  | .parenthesisOpen => "("
  | .percent => "%"
  | .percentEquals => "%="
  | .plus => "+"
  | .plusEquals => "+="
  | .plusPlus => "++"
  | .question => "?"
  | .questionDot => "?."
  | .questionDotBracketOpen => "?.["
  | .questionDotParenthesisOpen => "?.("
  | .questionQuestion => "??"
  | .questionQuestionEquals => "??="
  | .semicolon => ";"
  | .slash => "/"
  | .slashEquals => "/="
  | .tilde => "~"

/-- The longest punctuator at the front of a text. -/
def longestAt? (text : List Char) : Option Punctuator :=
  all.find? fun punctuator => punctuator.text.toList.isPrefixOf text

/-- What diagnostics call the characters of punctuators. -/
def charLabel : Char → String
  | '&' => "Ampersand" | '*' => "Asterisk" | '|' => "Bar"
  | '}' => "BraceClose" | '{' => "BraceOpen" | ']' => "BracketClose"
  | '[' => "BracketOpen" | '^' => "Caret" | '<' => "ChevronLeft"
  | '>' => "ChevronRight" | ':' => "Colon" | ',' => "Comma" | '.' => "Dot"
  | '=' => "Equals" | '!' => "Exclamation" | '-' => "Hyphen"
  | ')' => "ParenthesisClose" | '(' => "ParenthesisOpen" | '%' => "Percent"
  | '+' => "Plus" | '?' => "Question" | ';' => "Semicolon" | '/' => "Slash"
  | '~' => "Tilde" | c => c.toString

/-- How diagnostics call a punctuator: its characters one after the other. -/
def label (punctuator : Punctuator) : String :=
  String.join (punctuator.text.toList.map charLabel)

end Punctuator

end Bundler
