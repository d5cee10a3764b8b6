import LoxLang.Rule

/-! # The grammar

```text
declaration := "var" IDENTIFIER ("=" expression)? ";" | statement
statement   := "print" expression ";" | expression ";"
expression  := equality
equality    := comparison (("!=" | "==") comparison)*
comparison  := term ((">" | ">=" | "<" | "<=") term)*
term        := factor (("-" | "+") factor)*
factor      := unary (("/" | "*") unary)*
unary       := ("!" | "-") unary | primary
primary     := NUMBER | STRING | "true" | "false" | "nil" | IDENTIFIER | "(" expression ")"
```

The four binary levels associate to the left.  Groups and unary operators may
stand inside each other at most `maxNesting` deep; the rules of expressions take
the `room` that is left, the number of further levels that may be opened.  All
recursion of the grammar runs through a group or a unary operator, so `unary` is
defined by recursion on that number and the other levels are loops over it.
-/
namespace LoxLang

/-- How many groups and unary operators may stand inside each other. -/
def maxNesting : Nat := 128

/-- The room that is left inside `depth` groups and unary operators. -/
def roomAt (depth : Nat) : Nat := maxNesting - depth

namespace Grammar

/-! ### Binary levels -/

/-- Extends `left` by operators of the given kinds and their right operands, for
as long as one follows. -/
def chain (kinds : List Kind) (operand : Rule Expr) (left : Expr) :
    List Token → Except SyntaxError Expr × List Token
  | [] => (.ok left, [])
  | t :: ts =>
    if t.kind ∈ kinds then
      let r := operand.run ts
      match r.1 with
      | .ok right => chain kinds operand (.binary left t right) r.2
      | .error e => (.error e, r.2)
    else (.ok left, t :: ts)
termination_by ts => ts.length
decreasing_by exact Nat.lt_succ_of_le (operand.length_le ts)

theorem chain_suffix (kinds : List Kind) (operand : Rule Expr) (left : Expr) (ts : List Token) :
    (chain kinds operand left ts).2 <:+ ts := by
  fun_induction chain kinds operand left ts with
  | case1 => exact List.suffix_rfl
  | case2 left t ts _ _ right _ ih =>
    exact (ih.trans (operand.suffix ts)).trans (List.suffix_cons t ts)
  | case3 left t ts => exact (operand.suffix ts).trans (List.suffix_cons t ts)
  | case4 => exact List.suffix_rfl

/-- Operands with operators of the given kinds between them, grouped to the
left. -/
def leftAssociative (kinds : List Kind) (operand : Rule Expr) : Rule Expr := do
  let left ← operand
  { run := chain kinds operand left, suffix := chain_suffix kinds operand left }

/-- Products of what `operand` reads. -/
def factorOf (operand : Rule Expr) : Rule Expr := leftAssociative [.slash, .star] operand

/-- Sums of products of what `operand` reads. -/
def termOf (operand : Rule Expr) : Rule Expr :=
  leftAssociative [.minus, .plus] (factorOf operand)

/-- Comparisons of sums of products of what `operand` reads. -/
def comparisonOf (operand : Rule Expr) : Rule Expr :=
  leftAssociative [.greater, .greaterEqual, .less, .lessEqual] (termOf operand)

/-- Equations of comparisons of sums of products of what `operand` reads. -/
def equalityOf (operand : Rule Expr) : Rule Expr :=
  leftAssociative [.bangEqual, .equalEqual] (comparisonOf operand)

/-! ### Unary operators, groups and atoms -/

/-- The expression that a token is by itself.  A number or string counts only
with its literal. -/
def atom? (t : Token) : Option Expr :=
  match t.kind, t.literal with
  | .kwFalse, _ => some (.literal (.bool false))
  | .kwTrue, _ => some (.literal (.bool true))
  | .kwNil, _ => some (.literal .nil)
  | .number, some l => some (.literal l.toValue)
  | .string, some l => some (.literal l.toValue)
  | .identifier, _ => some (.var t)
  | _, _ => none

/-- An atom, or a group around what `inner` reads; without an `inner` there is no
room for a group. -/
def primaryOf (inner : Option (Rule Expr)) : Rule Expr := do
  match ← Rule.peek with
  | none => Rule.fail (.unmet .expression none)
  | some t =>
    match atom? t with
    | some e => do
      Rule.skip
      return e
    | none =>
      if t.kind = .leftParen then
        match inner with
        | none => Rule.fail (.unmet .lessNesting (some t))
        | some expression => do
          Rule.skip
          let e ← expression
          let _ ← Rule.expect .rightParen .closingParen
          return .group e
      else Rule.fail (.unmet .expression (some t))

/-- A primary expression behind any number of unary operators.  An operator for
which there is no room is consumed before it is refused. -/
def unary : (room : Nat) → Rule Expr
  | 0 => do
    match ← Rule.accept [.bang, .minus] with
    | some operator => Rule.fail (.unmet .lessNesting (some operator))
    | none => primaryOf none
  | room + 1 => do
    match ← Rule.accept [.bang, .minus] with
    | some operator => do
      let operand ← unary room
      return .unary operator operand
    | none => primaryOf (some (equalityOf (unary room)))

/-! ### The levels by the room that is left -/

/-- An atom or a group. -/
def primary : (room : Nat) → Rule Expr
  | 0 => primaryOf none
  | room + 1 => primaryOf (some (equalityOf (unary room)))

/-- Unary expressions joined by `/` and `*`. -/
def factor (room : Nat) : Rule Expr := factorOf (unary room)

/-- Factors joined by `-` and `+`. -/
def term (room : Nat) : Rule Expr := termOf (unary room)

/-- Terms joined by `>`, `>=`, `<` and `<=`. -/
def comparison (room : Nat) : Rule Expr := comparisonOf (unary room)

/-- Comparisons joined by `!=` and `==`. -/
def equality (room : Nat) : Rule Expr := equalityOf (unary room)

/-- Any expression. -/
def expression (room : Nat) : Rule Expr := equality room

/-! ### Statements -/

/-- `print` and an expression, or an expression alone. -/
def statement : Rule Stmt := do
  match ← Rule.accept [.kwPrint] with
  | some _ => do
    let value ← expression maxNesting
    let _ ← Rule.expect .semicolon .endOfPrint
    return .print value
  | none => do
    let expr ← expression maxNesting
    let _ ← Rule.expect .semicolon .endOfExpression
    return .expression expr

/-- The initial value of a variable, if it is given one. -/
def initializer : Rule (Option Expr) := do
  match ← Rule.accept [.equal] with
  | some _ => do
    let value ← expression maxNesting
    return some value
  | none => return none

/-- What follows `var`. -/
def variableDeclaration : Rule Stmt := do
  let name ← Rule.expect .identifier .variableName
  let initial ← initializer
  let _ ← Rule.expect .semicolon .endOfDeclaration
  return .declare name initial

/-- A declaration of a variable, or a statement. -/
def declaration : Rule Stmt := do
  match ← Rule.accept [.kwVar] with
  | some _ => variableDeclaration
  | none => statement

/-! ### Progress -/

theorem advances_statement : statement.Advances := by
  refine Rule.Advances.bind_right _ fun printed => ?_
  cases printed <;>
    exact Rule.Advances.bind_right _ fun _ => (Rule.advances_expect _ _).bind _

theorem advances_variableDeclaration : variableDeclaration.Advances :=
  (Rule.advances_expect _ _).bind _

/-- A declaration consumes at least one token. -/
theorem advances_declaration : declaration.Advances := by
  refine Rule.Advances.bind_right _ fun declared => ?_
  cases declared
  · exact advances_statement
  · exact advances_variableDeclaration

end Grammar
end LoxLang
