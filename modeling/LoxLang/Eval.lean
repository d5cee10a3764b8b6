import LoxLang.Environment
import LoxLang.Expr

/-! # Evaluation

What the operators do to values, and the value of an expression in an
environment.  An operator is chosen by the kind of its token.  The operands of a
binary operator are evaluated, left before right, before it looks at either.
-/
namespace LoxLang

/-! ### Operators -/

/-- Applies an operator of two numbers. -/
def onNumbers (operator : Token) (left right : Value) (f : Float → Float → Value) :
    Except Failure Value :=
  match left, right with
  | .number x, .number y => .ok (f x y)
  | _, _ => .error (.error ⟨.operandsNotNumbers, operator⟩)

/-- The sum of two numbers or the concatenation of two strings. -/
def plus (operator : Token) (left right : Value) : Except Failure Value :=
  match left, right with
  | .number x, .number y => .ok (.number (x + y))
  | .string s, .string t => .ok (.string (s ++ t))
  | _, _ => .error (.error ⟨.plusOperands, operator⟩)

/-- Applies a unary operator. -/
def applyUnary (operator : Token) (operand : Value) : Except Failure Value :=
  match operator.kind with
  | .minus =>
    match operand with
    | .number x => .ok (.number (-x))
    | _ => .error (.error ⟨.operandNotNumber, operator⟩)
  | .bang => .ok (.bool (!operand.truthy))
  | _ => .error (.fault (.unary operator.lexeme operator.line))

/-- Applies a binary operator. -/
def applyBinary (operator : Token) (left right : Value) : Except Failure Value :=
  match operator.kind with
  | .plus => plus operator left right
  | .minus => onNumbers operator left right fun x y => .number (x - y)
  | .star => onNumbers operator left right fun x y => .number (x * y)
  | .slash => onNumbers operator left right fun x y => .number (x / y)
  | .greater => onNumbers operator left right fun x y => .bool (x > y)
  | .greaterEqual => onNumbers operator left right fun x y => .bool (x ≥ y)
  | .less => onNumbers operator left right fun x y => .bool (x < y)
  | .lessEqual => onNumbers operator left right fun x y => .bool (x ≤ y)
  | .equalEqual => .ok (.bool (left.equal right))
  | .bangEqual => .ok (.bool (!left.equal right))
  | _ => .error (.fault (.binary operator.lexeme operator.line))

/-! ### Expressions -/

/-- The value of a variable. -/
def evalVar (env : Environment) (name : Token) : Except Failure Value :=
  (env.get name).mapError .error

/-- The value of an expression. -/
def Expr.eval (env : Environment) : Expr → Except Failure Value
  | literal value => .ok value
  | var name => evalVar env name
  | unary operator operand => do applyUnary operator (← operand.eval env)
  | binary left operator right => do
    let l ← left.eval env
    let r ← right.eval env
    applyBinary operator l r
  | group inner => inner.eval env

end LoxLang
