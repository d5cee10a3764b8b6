import LoxLang.Token

/-! # Syntax errors

What can be wrong with a source: two faults of its characters and two of its
tokens.  A report of any of them is one line, written by `reportText`.
-/
namespace LoxLang

/-- The line that reports an error. -/
def reportText (line : Nat) (location message : String) : String :=
  "[line " ++ line.repr ++ "] Error" ++ location ++ ": " ++ message

/-- What a rule of the grammar asks for and does not find. -/
inductive Demand where
  | expression
  | closingParen
  | variableName
  | endOfDeclaration
  | endOfPrint
  | endOfExpression
  /-- A group or a unary operator stands inside too many others. -/
  | lessNesting
deriving Repr, DecidableEq

/-- The wording of a demand. -/
def Demand.text : Demand → String
  | expression => "Expect expression."
  | closingParen => "Expect ')' after expression."
  | variableName => "Expect variable name."
  | endOfDeclaration => "Expect ';' after variable declaration."
  | endOfPrint => "Expect ';' after value."
  | endOfExpression => "Expect ';' after expression."
  | lessNesting => "Too much nesting."

/-- A fault of a source. -/
inductive SyntaxError where
  /-- A character that starts nothing. -/
  | strayCharacter (character : Char) (line : Nat)
  /-- A string that is still open at the end of the source. -/
  | unclosedString (line : Nat)
  /-- A token where something else was asked for. -/
  | unexpectedToken (lexeme message : String) (line : Nat)
  /-- The end of the input where something else was asked for. -/
  | unexpectedEnd (message : String) (line : Nat)
deriving Repr, DecidableEq

namespace SyntaxError

/-- The line an error is attributed to. -/
def line : SyntaxError → Nat
  | strayCharacter _ line => line
  | unclosedString line => line
  | unexpectedToken _ _ line => line
  | unexpectedEnd _ line => line

/-- Where on its line an error sits.  Faults of characters have no location. -/
def location : SyntaxError → String
  | strayCharacter _ _ => ""
  | unclosedString _ => ""
  | unexpectedToken lexeme _ _ => " at '" ++ lexeme ++ "'"
  | unexpectedEnd _ _ => " at end"

/-- The wording of an error, without line and location. -/
def message : SyntaxError → String
  | strayCharacter c _ => "Unexpected character: " ++ String.singleton c
  | unclosedString _ => "Unterminated string."
  | unexpectedToken _ message _ => message
  | unexpectedEnd message _ => message

/-- The line that reports an error. -/
def text (e : SyntaxError) : String := reportText e.line e.location e.message

/-- The error of a demand that `found` does not meet.  Where no token is left,
not even the end of the input, the line is 0. -/
def unmet (demand : Demand) : (found : Option Token) → SyntaxError
  | none => unexpectedEnd demand.text 0
  | some t =>
    if t.kind = .eof then unexpectedEnd demand.text t.line
    else unexpectedToken t.lexeme demand.text t.line

end SyntaxError
end LoxLang
