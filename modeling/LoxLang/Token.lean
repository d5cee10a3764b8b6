import LoxLang.Value

/-! # Tokens

A token is a kind, the exact text it was scanned from, the value that text
denotes if it is a literal, and a line.  The kinds include the three that mark
text without a token (comments, line breaks and blanks) and the end of the input.
The spellings that belong to exactly one kind are `Kind.keywords`,
`Kind.ofMark?` and `Kind.ofMarkEqual?`.
-/
namespace LoxLang

/-- The category of a token. -/
inductive Kind where
  | leftParen | rightParen | leftBrace | rightBrace | comma | dot | minus | plus | semicolon
  | slash | star
  | bang | bangEqual | equal | equalEqual | greater | greaterEqual | less | lessEqual
  | identifier | string | number
  | kwAnd | kwClass | kwElse | kwFalse | kwFun | kwFor | kwIf | kwNil | kwOr | kwPrint
  | kwReturn | kwSuper | kwThis | kwTrue | kwVar | kwWhile
  /-- The end of the input. -/
  | eof
  /-- Two slashes and the rest of the line. -/
  | comment
  /-- A line break. -/
  | newline
  /-- Spaces, tabs and carriage returns. -/
  | blank
deriving Repr, DecidableEq, Inhabited

namespace Kind

/-- The name under which a token dump shows a kind. -/
def name : Kind → String
  | leftParen => "LEFT_PAREN"
  | rightParen => "RIGHT_PAREN"
  | leftBrace => "LEFT_BRACE"
  | rightBrace => "RIGHT_BRACE"
  | comma => "COMMA"
  | dot => "DOT"
  | minus => "MINUS"
  | plus => "PLUS"
  | semicolon => "SEMICOLON"
  | slash => "SLASH"
  | star => "STAR"
  | bang => "BANG"
  | bangEqual => "BANG_EQUAL"
  | equal => "EQUAL"
  | equalEqual => "EQUAL_EQUAL"
  | greater => "GREATER"
  | greaterEqual => "GREATER_EQUAL"
  | less => "LESS"
  | lessEqual => "LESS_EQUAL"
  | identifier => "IDENTIFIER"
  | string => "STRING"
  | number => "NUMBER"
  | kwAnd => "AND"
  | kwClass => "CLASS"
  | kwElse => "ELSE"
  | kwFalse => "FALSE"
  | kwFun => "FUN"
  | kwFor => "FOR"
  | kwIf => "IF"
  | kwNil => "NIL"
  | kwOr => "OR"
  | kwPrint => "PRINT"
  | kwReturn => "RETURN"
  | kwSuper => "SUPER"
  | kwThis => "THIS"
  | kwTrue => "TRUE"
  | kwVar => "VAR"
  | kwWhile => "WHILE"
  | eof => "EOF"
  | comment => "COMMENT"
  | newline => "NEWLINE"
  | blank => "IGNORED"

/-- Every kind, in the order of the declaration. -/
def all : List Kind :=
  [leftParen, rightParen, leftBrace, rightBrace, comma, dot, minus, plus, semicolon, slash, star,
    bang, bangEqual, equal, equalEqual, greater, greaterEqual, less, lessEqual,
    identifier, string, number,
    kwAnd, kwClass, kwElse, kwFalse, kwFun, kwFor, kwIf, kwNil, kwOr, kwPrint,
    kwReturn, kwSuper, kwThis, kwTrue, kwVar, kwWhile,
    eof, comment, newline, blank]

/-- The kind of a given name. -/
def ofName? (name : String) : Option Kind := all.find? (·.name == name)

/-- The reserved words, none of which is an identifier. -/
def keywords : List (String × Kind) :=
  [("and", kwAnd), ("class", kwClass), ("else", kwElse), ("false", kwFalse), ("fun", kwFun),
    ("for", kwFor), ("if", kwIf), ("nil", kwNil), ("or", kwOr), ("print", kwPrint),
    ("return", kwReturn), ("super", kwSuper), ("this", kwThis), ("true", kwTrue), ("var", kwVar),
    ("while", kwWhile)]

/-- The kind of a word: its own if it is reserved, else an identifier. -/
def ofWord (word : String) : Kind := (keywords.lookup word).getD identifier

/-- The kind of a mark of one character. -/
def ofMark? : Char → Option Kind
  | '(' => some leftParen
  | ')' => some rightParen
  | '{' => some leftBrace
  | '}' => some rightBrace
  | ',' => some comma
  | '.' => some dot
  | '-' => some minus
  | '+' => some plus
  | ';' => some semicolon
  | '/' => some slash
  | '*' => some star
  | '!' => some bang
  | '=' => some equal
  | '>' => some greater
  | '<' => some less
  | _ => none

/-- The kind of a mark of two characters, the second of which is `=`. -/
def ofMarkEqual? : Char → Option Kind
  | '!' => some bangEqual
  | '=' => some equalEqual
  | '>' => some greaterEqual
  | '<' => some lessEqual
  | _ => none

/-- Whether text of this kind gives no token. -/
def silent (k : Kind) : Bool := k ∈ [comment, newline, blank]

/-- Every kind has a name of its own. -/
theorem ofName?_name (k : Kind) : ofName? k.name = some k := by
  cases k <;> decide

end Kind

/-- The value that the text of a token denotes. -/
inductive Literal where
  /-- The text strictly between the quotes. -/
  | string (s : String)
  /-- The number nearest to the digits. -/
  | number (x : Float)
deriving Repr, DecidableEq

namespace Literal

/-- The literal as a value. -/
def toValue : Literal → Value
  | string s => .string s
  | number x => .number x

/-- The literal as a token dump shows it. -/
def text : Literal → String
  | string s => s
  | number x => Number.literalText x

end Literal

/-- A token. -/
structure Token where
  /-- Its category. -/
  kind : Kind
  /-- The exact text it was scanned from. -/
  lexeme : String
  /-- The value of a literal. -/
  literal : Option Literal
  /-- The line on which its text ends. -/
  line : Nat
deriving Repr, DecidableEq

namespace Token

/-- The token that ends the input. -/
def eof (line : Nat) : Token := ⟨.eof, "", none, line⟩

/-- Kind, lexeme and literal, as a token dump shows them. -/
def text (t : Token) : String :=
  t.kind.name ++ " " ++ t.lexeme ++ " " ++ (t.literal.map Literal.text).getD "null"

end Token
end LoxLang
