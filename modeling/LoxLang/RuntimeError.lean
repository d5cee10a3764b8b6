import LoxLang.Token

/-! # What can go wrong in a run

A runtime error is a fault of the program that runs: it has a cause and the token
it is attributed to.  An operator fault is one of the tree that is run: an
operator that no rule of evaluation covers.  Evaluation stops at the first
failure of either sort.
-/
namespace LoxLang

/-- What a program did wrong. -/
inductive Cause where
  /-- A unary operator met something that is not a number. -/
  | operandNotNumber
  /-- A binary operator met something that is not a number. -/
  | operandsNotNumbers
  /-- A plus met neither two numbers nor two strings. -/
  | plusOperands
  /-- No variable of the name was declared. -/
  | undefinedVariable
deriving Repr, DecidableEq

/-- A fault of a program that runs. -/
structure RuntimeError where
  /-- What went wrong. -/
  cause : Cause
  /-- The operator or the variable at which it did. -/
  token : Token
deriving Repr, DecidableEq

namespace RuntimeError

/-- The line an error is attributed to. -/
def line (e : RuntimeError) : Nat := e.token.line

/-- The wording of an error, without its line. -/
def message (e : RuntimeError) : String :=
  match e.cause with
  | .operandNotNumber => "Operand must be a number."
  | .operandsNotNumbers => "Operands must be a number."
  | .plusOperands => "Plus requires numbers or strings."
  | .undefinedVariable => "Undefined variable '" ++ e.token.lexeme ++ "'."

/-- The report of an error: its wording, and its line below it. -/
def text (e : RuntimeError) : String := e.message ++ "\n[line " ++ e.line.repr ++ "]"

end RuntimeError

/-- A fault of a tree: an operator without a rule of evaluation. -/
inductive OperatorFault where
  | unary (lexeme : String) (line : Nat)
  | binary (lexeme : String) (line : Nat)
deriving Repr, DecidableEq

/-- The report of an operator fault. -/
def OperatorFault.text : OperatorFault → String
  | unary lexeme line =>
    "Internal error on line " ++ line.repr ++ ": Unknown unary operator '" ++ lexeme ++ "'."
  | binary lexeme line =>
    "Internal error on line " ++ line.repr ++ ": Unknown binary operator '" ++ lexeme ++ "'."

/-- Why an evaluation stopped. -/
inductive Failure where
  /-- The program is at fault. -/
  | error (e : RuntimeError)
  /-- The tree is at fault. -/
  | fault (f : OperatorFault)
deriving Repr, DecidableEq

/-- The report of a failure. -/
def Failure.text : Failure → String
  | error e => e.text
  | fault f => f.text

end LoxLang
