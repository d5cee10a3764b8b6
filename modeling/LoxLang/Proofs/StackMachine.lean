import LoxLang.Eval
import LoxLang.Postorder

/-! # Evaluation on a stack

The nodes of an expression, operands first, are a program for a machine with a stack of
values: an atom pushes its value, an operator replaces its operands by what it makes of
them, and a group changes nothing.  The machine stops at the first node that fails.

Running the nodes of an expression pushes the value of the expression or stops with its
failure, whatever is on the stack and whatever nodes follow (`Machine.run_nodes_append`).
So the failure of an expression is that of its first failing node.  The nodes before a
binary operator end with those of its operands (`Expr.exists_operands_of_nodes_eq`), so
both operands have been evaluated when the machine comes to look at the operator
(`eval_agrees_with_machine`).
-/
namespace LoxLang

/-! ### The machine -/

/-- Why a machine stops before it is through its nodes. -/
inductive Stop where
  /-- A node finds fewer operands on the stack than it takes. -/
  | starved
  /-- A node fails. -/
  | failed (failure : Failure)
deriving Repr, DecidableEq

/-- Pushes a value, or stops with the failure to get one. -/
def pushed (stack : List Value) : Except Failure Value → Except Stop (List Value)
  | .ok value => .ok (value :: stack)
  | .error failure => .error (.failed failure)

/-- What a node does to a stack.  Of the two operands of a binary operator the right one
is on top. -/
def Node.step (env : Environment) : List Value → Node → Except Stop (List Value)
  | stack, .literal value => .ok (value :: stack)
  | stack, .var name => pushed stack (evalVar env name)
  | operand :: stack, .unary operator => pushed stack (applyUnary operator operand)
  | right :: left :: stack, .binary operator => pushed stack (applyBinary operator left right)
  | stack, .group => .ok stack
  | _, _ => .error .starved

namespace Machine

/-- Runs nodes one after another on a stack, up to the first that stops the machine. -/
def run (env : Environment) (nodes : List Node) (stack : List Value) :
    Except Stop (List Value) :=
  nodes.foldlM (Node.step env) stack

section Run
variable {env : Environment}

theorem run_cons (node : Node) (nodes : List Node) (stack : List Value) :
    run env (node :: nodes) stack = node.step env stack >>= run env nodes :=
  List.foldlM_cons

theorem run_append (nodes more : List Node) (stack : List Value) :
    run env (nodes ++ more) stack = run env nodes stack >>= run env more :=
  List.foldlM_append

/-- **A machine stops at the first node that stops it.** -/
theorem run_eq_error_iff {nodes : List Node} {stack : List Value} {stop : Stop} :
    run env nodes stack = .error stop ↔
      ∃ before node after reached, nodes = before ++ node :: after ∧
        run env before stack = .ok reached ∧ node.step env reached = .error stop := by
  constructor
  · intro h
    induction nodes generalizing stack with
    | nil => cases h
    | cons node nodes ih =>
      rw [run_cons] at h
      cases hstep : node.step env stack with
      | error stop' =>
        rw [hstep] at h
        cases h
        exact ⟨[], node, nodes, stack, rfl, rfl, hstep⟩
      | ok next =>
        rw [hstep] at h
        obtain ⟨before, last, after, reached, rfl, hbefore, hlast⟩ := ih h
        refine ⟨node :: before, last, after, reached, rfl, ?_, hlast⟩
        rw [run_cons, hstep]
        exact hbefore
  · rintro ⟨before, node, after, reached, rfl, hbefore, hnode⟩
    rw [run_append, hbefore]
    change run env (node :: after) reached = .error stop
    rw [run_cons, hnode]
    rfl

/-- **The nodes of an expression push its value**, or stop the machine with its failure,
above any stack and before any other nodes.  The induction is on the expression; each
operand runs above what the operands before it have left. -/
theorem run_nodes_append (e : Expr) (rest : List Node) (stack : List Value) :
    run env (e.nodes ++ rest) stack = pushed stack (e.eval env) >>= run env rest := by
  induction e generalizing rest stack with
  | literal value => exact run_cons ..
  | var name => exact run_cons ..
  | unary operator operand ih =>
    rw [Expr.nodes, List.append_assoc, ih, Expr.eval]
    cases operand.eval env with
    | error failure => rfl
    | ok value => exact run_cons ..
  | binary left operator right ihl ihr =>
    rw [Expr.nodes, List.append_assoc, List.append_assoc, ihl, Expr.eval]
    cases left.eval env with
    | error failure => rfl
    | ok l =>
      -- the right operand runs above the value of the left one
      change run env (right.nodes ++ _) (l :: stack) = _
      rw [ihr]
      cases right.eval env with
      | error failure => rfl
      | ok r => exact run_cons ..
  | group inner ih =>
    rw [Expr.nodes, List.append_assoc, ih, Expr.eval]
    cases inner.eval env with
    | error failure => rfl
    | ok value => exact run_cons .group rest (value :: stack)

theorem run_nodes (e : Expr) (stack : List Value) :
    run env e.nodes stack = pushed stack (e.eval env) := by
  have h : run env (e.nodes ++ []) stack = _ := run_nodes_append e [] stack
  rw [← List.append_nil e.nodes, h]
  cases e.eval env <;> rfl

/-- Nodes that leave a stack leave one at each place among them. -/
theorem exists_run_of_append {nodes more : List Node} {stack reached : List Value}
    (h : run env (nodes ++ more) stack = .ok reached) :
    ∃ middle, run env nodes stack = .ok middle ∧ run env more middle = .ok reached := by
  rw [run_append] at h
  cases hnodes : run env nodes stack with
  | error stop =>
    rw [hnodes] at h
    cases h
  | ok middle =>
    rw [hnodes] at h
    exact ⟨middle, rfl, h⟩

/-- Nodes of an expression that leave a stack leave the value of the expression on it. -/
theorem exists_eval_of_run_nodes {e : Expr} {stack reached : List Value}
    (h : run env e.nodes stack = .ok reached) :
    ∃ value, e.eval env = .ok value ∧ reached = value :: stack := by
  rw [run_nodes] at h
  cases heval : e.eval env with
  | error failure =>
    rw [heval] at h
    cases h
  | ok value =>
    rw [heval] at h
    cases h
    exact ⟨value, rfl, rfl⟩

end Run
end Machine

/-! ### The nodes before an operator -/

section Places
variable {α : Type} {xs ys before after : List α} {x last : α}

/-- A place in a concatenation is one in its first part or one in its second part. -/
theorem place_of_append_eq (h : xs ++ ys = before ++ x :: after) :
    (∃ us, xs = before ++ x :: us) ∨ ∃ us, before = xs ++ us ∧ ys = us ++ x :: after := by
  rcases List.append_eq_append_iff.mp h with ⟨us, hbefore, hys⟩ | ⟨us, hxs, hus⟩
  · exact Or.inr ⟨us, hbefore, hys⟩
  · rcases List.cons_eq_append_iff.mp hus with ⟨rfl, hys⟩ | ⟨vs, rfl, _⟩
    · exact Or.inr ⟨[], by simp [hxs], hys⟩
    · exact Or.inl ⟨vs, hxs⟩

theorem place_of_singleton_eq (h : [last] = before ++ x :: after) : before = [] ∧ x = last := by
  rcases List.singleton_eq_append_iff.mp h with ⟨hbefore, hx⟩ | ⟨_, hnil⟩
  · exact ⟨hbefore, (List.cons.inj hx).1⟩
  · cases hnil

end Places

/-- **The operands of a binary operator stand right before it**, the right one last. -/
theorem Expr.exists_operands_of_nodes_eq {e : Expr} {before after : List Node}
    {operator : Token} (h : e.nodes = before ++ .binary operator :: after) :
    ∃ (first : List Node) (left right : Expr), before = first ++ left.nodes ++ right.nodes := by
  induction e generalizing before after with
  | literal value => cases (place_of_singleton_eq h).2
  | var name => cases (place_of_singleton_eq h).2
  | unary operator' operand ih =>
    rcases place_of_append_eq h with ⟨us, hoperand⟩ | ⟨us, _, hroot⟩
    · exact ih hoperand
    · cases (place_of_singleton_eq hroot).2
  | binary left operator' right ihl ihr =>
    -- the operator stands inside one of the operands, or it is the root
    rcases place_of_append_eq h with ⟨us, hoperands⟩ | ⟨us, rfl, hroot⟩
    · rcases place_of_append_eq hoperands with ⟨vs, hleft⟩ | ⟨vs, rfl, hright⟩
      · exact ihl hleft
      · obtain ⟨first, left', right', rfl⟩ := ihr hright
        exact ⟨left.nodes ++ first, left', right', by simp only [List.append_assoc]⟩
    · obtain ⟨rfl, _⟩ := place_of_singleton_eq hroot
      exact ⟨[], left, right, by rw [List.append_nil, List.nil_append]⟩
  | group inner ih =>
    rcases place_of_append_eq h with ⟨us, hinner⟩ | ⟨us, _, hroot⟩
    · exact ih hinner
    · cases (place_of_singleton_eq hroot).2

/-! ### The theorem -/

/-- **Evaluation agrees with the machine.**  From an empty stack, the nodes of an
expression leave its value alone on the stack, or stop the machine with its failure.  So
an expression fails with the failure of the first of its nodes that fails.  When the
machine reaches a binary operator, both its operands have been evaluated, the left one
before the right one, and their values are on top of the stack. -/
theorem eval_agrees_with_machine (env : Environment) (e : Expr) :
    (Machine.run env e.nodes [] =
      match e.eval env with
      | .ok value => .ok [value]
      | .error failure => .error (.failed failure)) ∧
    (∀ failure, e.eval env = .error failure ↔
      ∃ before node after stack, e.nodes = before ++ node :: after ∧
        Machine.run env before [] = .ok stack ∧
        node.step env stack = .error (.failed failure)) ∧
    ∀ before operator after stack, e.nodes = before ++ .binary operator :: after →
      Machine.run env before [] = .ok stack →
      ∃ (first : List Node) (left right : Expr) (below : List Value) (l r : Value),
        before = first ++ left.nodes ++ right.nodes ∧ Machine.run env first [] = .ok below ∧
        left.eval env = .ok l ∧ right.eval env = .ok r ∧ stack = r :: l :: below := by
  have hrun : Machine.run env e.nodes [] = pushed [] (e.eval env) := Machine.run_nodes e []
  refine ⟨?_, fun failure => ?_, ?_⟩
  · rw [hrun]
    cases e.eval env <;> rfl
  · rw [← Machine.run_eq_error_iff, hrun]
    cases e.eval env <;> simp [pushed]
  · intro before operator after stack hnodes hbefore
    obtain ⟨first, left, right, rfl⟩ := Expr.exists_operands_of_nodes_eq hnodes
    obtain ⟨middle, hmiddle, hright⟩ := Machine.exists_run_of_append hbefore
    obtain ⟨below, hfirst, hleft⟩ := Machine.exists_run_of_append hmiddle
    obtain ⟨l, hl, rfl⟩ := Machine.exists_eval_of_run_nodes hleft
    obtain ⟨r, hr, rfl⟩ := Machine.exists_eval_of_run_nodes hright
    exact ⟨first, left, right, below, l, r, rfl, hfirst, hl, hr, rfl⟩

/-- In `x , -nil` everything is wrong: the variable is not declared, `nil` has no
negative, and there is no such operator.  The variable comes first.  With `true` and
`false` for operands the operator is reached, and both are on the stack. -/
theorem eval_agrees_with_machine_comma :
    let x : Token := ⟨.identifier, "x", none, 1⟩
    let comma : Token := ⟨.comma, ",", none, 1⟩
    let wrong : Expr := .binary (.var x) comma (.unary ⟨.minus, "-", none, 1⟩ (.literal .nil))
    let pair : Expr := .binary (.literal (.bool true)) comma (.literal (.bool false))
    let operands : List Node := [.literal (.bool true), .literal (.bool false)]
    wrong.eval .empty = .error (.error ⟨.undefinedVariable, x⟩) ∧
      Machine.run .empty wrong.nodes [] = .error (.failed (.error ⟨.undefinedVariable, x⟩)) ∧
      pair.nodes = operands ++ .binary comma :: [] ∧
      Machine.run .empty operands [] = .ok [.bool false, .bool true] ∧
      ∃ (first : List Node) (left right : Expr) (below : List Value) (l r : Value),
        operands = first ++ left.nodes ++ right.nodes ∧
        Machine.run .empty first [] = .ok below ∧ left.eval .empty = .ok l ∧
        right.eval .empty = .ok r ∧ [.bool false, .bool true] = r :: l :: below := by
  intro x comma wrong pair operands
  have hrun := (eval_agrees_with_machine .empty wrong).1
  have hreached := (eval_agrees_with_machine .empty pair).2.2
  exact ⟨rfl, hrun, rfl, rfl, hreached operands comma [] _ rfl rfl⟩

end LoxLang
