import LoxLang.Expr

/-! # Expressions as lists of nodes

An expression written as the list of its nodes with operands before operators,
left before right.  The list determines the expression: `Expr.ofNodes?` rebuilds
it with a stack of finished operands (`ofNodes?_nodes`).
-/
namespace LoxLang

/-- A node of an expression without its operands. -/
inductive Node where
  | literal (value : Value)
  | var (name : Token)
  | unary (operator : Token)
  | binary (operator : Token)
  | group
deriving Repr, DecidableEq

/-- The nodes of an expression, operands first. -/
def Expr.nodes : Expr → List Node
  | literal value => [.literal value]
  | var name => [.var name]
  | unary operator operand => operand.nodes ++ [.unary operator]
  | binary left operator right => left.nodes ++ right.nodes ++ [.binary operator]
  | group inner => inner.nodes ++ [.group]

/-- Finishes a node with the operands on top of the stack. -/
def Node.push? : List Expr → Node → Option (List Expr)
  | stack, .literal value => some (.literal value :: stack)
  | stack, .var name => some (.var name :: stack)
  | operand :: stack, .unary operator => some (.unary operator operand :: stack)
  | right :: left :: stack, .binary operator => some (.binary left operator right :: stack)
  | inner :: stack, .group => some (.group inner :: stack)
  | _, _ => none

/-- The expression with the given nodes. -/
def Expr.ofNodes? (nodes : List Node) : Option Expr :=
  match nodes.foldlM Node.push? [] with
  | some [e] => some e
  | _ => none

theorem Expr.foldlM_push?_nodes (e : Expr) (stack : List Expr) (rest : List Node) :
    (e.nodes ++ rest).foldlM Node.push? stack = rest.foldlM Node.push? (e :: stack) := by
  induction e generalizing stack rest with
  | literal value => rfl
  | var name => rfl
  | unary operator operand ih => simp [nodes, ih, Node.push?]
  | binary left operator right ihl ihr => simp [nodes, ihl, ihr, Node.push?]
  | group inner ih => simp [nodes, ih, Node.push?]

/-- **The nodes determine the expression.** -/
theorem Expr.ofNodes?_nodes (e : Expr) : ofNodes? e.nodes = some e := by
  have h := foldlM_push?_nodes e [] []
  simp only [List.append_nil] at h
  simp [ofNodes?, h]

end LoxLang
