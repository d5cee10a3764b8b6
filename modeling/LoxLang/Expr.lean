import LoxLang.Token

/-! # Expressions

Expression trees, and their dump as parenthesised text with the operator first.
Operators are kept as tokens: what they do depends on their kind, what they are
called in reports and dumps on their lexeme.
-/
namespace LoxLang

/-- An expression. -/
inductive Expr where
  /-- A constant. -/
  | literal (value : Value)
  /-- The value of a variable. -/
  | var (name : Token)
  /-- An operator before its operand. -/
  | unary (operator : Token) (operand : Expr)
  /-- An operator between its operands. -/
  | binary (left : Expr) (operator : Token) (right : Expr)
  /-- An expression in parentheses. -/
  | group (inner : Expr)
deriving Repr, DecidableEq

/-- A head and its operands in parentheses, separated by single spaces. -/
def parenthesized (head : String) (operands : List String) : String :=
  "(" ++ " ".intercalate (head :: operands) ++ ")"

/-- The dump of an expression. -/
def Expr.text : Expr → String
  | literal value => value.text
  | var name => name.lexeme
  | unary operator operand => parenthesized operator.lexeme [operand.text]
  | binary left operator right => parenthesized operator.lexeme [left.text, right.text]
  | group inner => parenthesized "group" [inner.text]

/-- A statement. -/
inductive Stmt where
  /-- Evaluates an expression and forgets its value. -/
  | expression (expr : Expr)
  /-- Writes the value of an expression. -/
  | print (expr : Expr)
  /-- Declares a variable, with `nil` where it has no initial value. -/
  | declare (name : Token) (initial : Option Expr)
deriving Repr, DecidableEq

/-- The expression of a statement, if it has one. -/
def Stmt.expr? : Stmt → Option Expr
  | expression expr => some expr
  | print expr => some expr
  | declare _ initial => initial

/-- The dump of a statement. -/
def Stmt.text : Stmt → String
  | expression expr => parenthesized ";" [expr.text]
  | print expr => parenthesized "print" [expr.text]
  | declare name initial => parenthesized "var" (name.lexeme :: (initial.map Expr.text).toList)

end LoxLang
