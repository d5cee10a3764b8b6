import LoxLang.Proofs.Acceptance

/-! # How high parsed trees get

The nesting limit counts groups and unary operators.  It does not count binary
operators, and a level of those grows the tree by one for every operator in a row:
the height of `1 + 1 + ... + 1` is the number of its operators, so no bound on the
height holds for all parsed trees (`no_bound_on_height`).

Long rows of operators are the only way past the limit.  Between two groups or unary
operators the tree goes down through at most one row of each of the four levels, so
that the height is bounded by the nesting and the longest row together
(`Derives.height_le`).  The heights of a family of programs are therefore bounded
exactly if its rows are (`heights_bounded_iff_chains_bounded`).
-/
namespace LoxLang
open Grammar

namespace Expr

/-- The longest way down an expression, in operators and groups. -/
def height : Expr → Nat
  | literal _ => 0
  | var _ => 0
  | unary _ operand => operand.height + 1
  | binary left _ right => max left.height right.height + 1
  | group inner => inner.height + 1

/-- How many operators of a level stand in a row at the top of an expression. -/
def chain (level : Level) : Expr → Nat
  | binary left operator _ => if operator.kind ∈ level.operators then left.chain level + 1 else 0
  | _ => 0

/-- How many operators of one level, whichever it is, stand in a row at the top of an
expression. -/
def topChain (e : Expr) : Nat :=
  max (max (e.chain .equality) (e.chain .comparison)) (max (e.chain .term) (e.chain .factor))

/-- How many operators of one level stand in a row anywhere in an expression. -/
def longestChain : Expr → Nat
  | literal _ => 0
  | var _ => 0
  | unary _ operand => operand.longestChain
  | binary left operator right =>
    max (max left.longestChain right.longestChain) (binary left operator right).topChain
  | group inner => inner.longestChain

theorem chain_binary_of_mem {level : Level} {operator : Token}
    (h : operator.kind ∈ level.operators) (left right : Expr) :
    (binary left operator right).chain level = left.chain level + 1 := if_pos h

/-- A row at the top is no longer than the longest. -/
theorem chain_le_longestChain (level : Level) (e : Expr) : e.chain level ≤ e.longestChain := by
  cases e with
  | literal | var | unary | group => exact Nat.zero_le _
  | binary left operator right =>
    rw [longestChain, topChain]
    cases level <;> omega

/-- Every operator of a row adds to the height. -/
theorem chain_le_height (level : Level) (e : Expr) : e.chain level ≤ e.height := by
  induction e with
  | literal | var | unary | group => exact Nat.zero_le _
  | binary left operator right ihl _ =>
    rw [chain, height]
    split <;> omega

theorem topChain_le_height (e : Expr) : e.topChain ≤ e.height :=
  Nat.max_le.mpr
    ⟨Nat.max_le.mpr ⟨chain_le_height .equality e, chain_le_height .comparison e⟩,
      Nat.max_le.mpr ⟨chain_le_height .term e, chain_le_height .factor e⟩⟩

theorem longestChain_le_height (e : Expr) : e.longestChain ≤ e.height := by
  induction e with
  | literal | var => exact Nat.le_refl 0
  | unary _ operand ih => exact Nat.le_succ_of_le ih
  | binary left operator right ihl ihr =>
    have htop := topChain_le_height (binary left operator right)
    rw [height] at htop
    rw [longestChain, height]
    omega
  | group inner ih => exact Nat.le_succ_of_le ih

end Expr

namespace Grammar

/-! ### The nesting and the longest row bound the height -/

/-- How far a phrase of a category goes down before its first group or unary operator:
through the row of operators at its top, and through one of each level below. -/
def Category.reach (m : Nat) : Category → Expr → Nat
  | binary .equality, e => e.chain .equality + 3 * m
  | binary .comparison, e => e.chain .comparison + 2 * m
  | binary .term, e => e.chain .term + m
  | binary .factor, e => e.chain .factor
  | unary, _ => 0
  | primary, _ => 0

section Height
variable {m : Nat} {e : Expr}

theorem Level.reach_operation (level : Level) {operator : Token} {left right : Expr}
    (ho : operator.kind ∈ level.operators) :
    (Category.binary level).reach m (.binary left operator right) =
      (Category.binary level).reach m left + 1 := by
  cases level <;> simp only [Category.reach, Expr.chain_binary_of_mem ho] <;> omega

/-- An operand of a level goes down no further than any phrase of the level may. -/
theorem Level.reach_operand_le (level : Level) (hm : e.longestChain ≤ m) (phrase : Expr) :
    level.operand.reach m e ≤ (Category.binary level).reach m phrase := by
  have hcomparison := e.chain_le_longestChain .comparison
  have hterm := e.chain_le_longestChain .term
  have hfactor := e.chain_le_longestChain .factor
  cases level <;> simp only [Level.operand, Category.reach] <;> omega

theorem reach_equality_le (hm : e.longestChain ≤ m) :
    (Category.binary .equality).reach m e ≤ 4 * m := by
  have hequality := e.chain_le_longestChain .equality
  simp only [Category.reach]
  omega

/-- **The height of a phrase.**  Every group and every unary operator opens at most
four more rows of operators, one of each level. -/
theorem Derives.height_le {c : Category} {ts : List Token} (h : Derives c ts e)
    (hm : e.longestChain ≤ m) : e.height ≤ c.reach m e + e.nesting * (4 * m + 1) := by
  induction h with
  | @operand level _ e _ ih =>
    have hstep := level.reach_operand_le hm e
    have hoperand := ih hm
    omega
  | @operation level _ _ operator left right _ ho _ ihl ihr =>
    have hparts : max left.longestChain right.longestChain ≤ m :=
      Nat.le_trans (Nat.le_max_left _ _) hm
    obtain ⟨hml, hmr⟩ := Nat.max_le.mp hparts
    have hleft : left.nesting * (4 * m + 1) ≤ max left.nesting right.nesting * (4 * m + 1) :=
      Nat.mul_le_mul_right _ (Nat.le_max_left _ _)
    have hright : right.nesting * (4 * m + 1) ≤ max left.nesting right.nesting * (4 * m + 1) :=
      Nat.mul_le_mul_right _ (Nat.le_max_right _ _)
    have hbelow := level.reach_operand_le hmr left
    have hl := ihl hml
    have hr := ihr hmr
    rw [level.reach_operation ho, Expr.height, Expr.nesting]
    omega
  | unary _ _ ih =>
    have hoperand := ih hm
    rw [Expr.height, Expr.nesting, Nat.succ_mul]
    simp only [Category.reach] at hoperand ⊢
    omega
  | primary _ ih => exact ih hm
  | constant | true | false | nil | identifier => exact Nat.zero_le _
  | @group _ _ _ inner _ _ _ ih =>
    have hinner := ih hm
    have hrows : (Category.binary .equality).reach m inner ≤ 4 * m := reach_equality_le hm
    rw [Expr.height, Expr.nesting, Nat.succ_mul]
    omega

end Height
end Grammar

/-! ### Parsed trees -/

namespace Program

/-- **The height of a parsed expression** is bounded by the nesting limit and its
longest row of operators. -/
theorem height_le_of_mem_statements {ts : List Token} {s : Stmt} {e : Expr}
    (hs : s ∈ (parse ts).statements) (he : e ∈ s.expr?) :
    e.height ≤ 4 * e.longestChain + maxNesting * (4 * e.longestChain + 1) := by
  obtain ⟨_, _, hd, hn⟩ := exists_valid_of_mem_statements hs
  obtain ⟨_, h⟩ := hd.exists_derives he
  have hnesting : e.nesting ≤ maxNesting := by
    unfold Stmt.nesting at hn
    rwa [Option.mem_def.mp he] at hn
  have hheight := h.height_le (Nat.le_refl e.longestChain)
  have hrows := reach_equality_le (Nat.le_refl e.longestChain)
  have hlevels := Nat.mul_le_mul_right (4 * e.longestChain + 1) hnesting
  omega

/-! ### Rows have no bound -/

/-- The token `1`. -/
def one : Token := ⟨.number, "1", some (.number 1), 1⟩

/-- The token `+`. -/
def plusSign : Token := ⟨.plus, "+", none, 1⟩

/-- The token `;`. -/
def semicolon : Token := ⟨.semicolon, ";", none, 1⟩

/-- The tokens of `1 + 1 + ... + 1`, with `n` operators. -/
def sumTokens (n : Nat) : List Token := one :: (List.replicate n [plusSign, one]).flatten

/-- The tree of `1 + 1 + ... + 1`, with `n` operators. -/
def sumTree : Nat → Expr
  | 0 => .literal (.number 1)
  | n + 1 => .binary (sumTree n) plusSign (.literal (.number 1))

theorem derives_sum (n : Nat) : Derives (.binary .term) (sumTokens n) (sumTree n) := by
  have hone : Derives .primary [one] (.literal (.number 1)) :=
    .constant (l := .number 1) (Or.inl rfl) rfl
  have hfactor : Derives (.binary .factor) [one] (.literal (.number 1)) := .operand (.primary hone)
  induction n with
  | zero => exact .operand hfactor
  | succ n ih =>
    have hop : plusSign.kind ∈ Level.term.operators := by decide
    have hlonger : sumTokens (n + 1) = sumTokens n ++ plusSign :: [one] := by
      simp [sumTokens, List.replicate_succ']
    rw [hlonger]
    exact .operation ih hop hfactor

theorem nesting_sumTree (n : Nat) : (sumTree n).nesting = 0 := by
  induction n with
  | zero => rfl
  | succ n ih => simp [sumTree, Expr.nesting, ih]

theorem height_sumTree (n : Nat) : (sumTree n).height = n := by
  induction n with
  | zero => rfl
  | succ n ih => simp [sumTree, Expr.height, ih]

/-- **A sum is parsed to its tree**, however long it is. -/
theorem parse_sum (n : Nat) :
    parse (sumTokens n ++ [semicolon] ++ [.eof 1]) =
      ⟨[.expression (sumTree n)], []⟩ := by
  have hexpr : DerivesExpression (sumTokens n) (sumTree n) := .operand (.operand (derives_sum n))
  have hstop : semicolon.kind = .semicolon := rfl
  have hprogram := DerivesProgram.cons (.statement (.expression hexpr hstop)) .nil
  have hnesting : ∀ s ∈ [Stmt.expression (sumTree n)], s.nesting ≤ maxNesting := by
    intro s hs
    rw [List.mem_singleton.mp hs, show (Stmt.expression (sumTree n)).nesting = 0 from
      nesting_sumTree n]
    exact Nat.zero_le _
  rw [List.append_nil] at hprogram
  exact parse_eq_iff.mpr (attempts_of_derivesProgram rfl hprogram hnesting)

/-- **The trees of a family of programs are bounded in height iff their rows of
operators are bounded in length.**  Where no row is longer than `m`, the bound is
`4 * m + maxNesting * (4 * m + 1)`, and so depends only on the nesting limit and on
`m`. -/
theorem heights_bounded_iff_chains_bounded (family : List Token → Prop) :
    (∀ m, (∀ ts, family ts → ∀ s ∈ (parse ts).statements, ∀ e ∈ s.expr?, e.longestChain ≤ m) →
      ∀ ts, family ts → ∀ s ∈ (parse ts).statements, ∀ e ∈ s.expr?,
        e.height ≤ 4 * m + maxNesting * (4 * m + 1)) ∧
    ((∃ bound, ∀ ts, family ts → ∀ s ∈ (parse ts).statements, ∀ e ∈ s.expr?, e.height ≤ bound) ↔
      ∃ m, ∀ ts, family ts → ∀ s ∈ (parse ts).statements, ∀ e ∈ s.expr?, e.longestChain ≤ m) := by
  have hbound : ∀ m,
      (∀ ts, family ts → ∀ s ∈ (parse ts).statements, ∀ e ∈ s.expr?, e.longestChain ≤ m) →
      ∀ ts, family ts → ∀ s ∈ (parse ts).statements, ∀ e ∈ s.expr?,
        e.height ≤ 4 * m + maxNesting * (4 * m + 1) := by
    intro m hm ts hts s hs e he
    have hchain := hm ts hts s hs e he
    have hheight := height_le_of_mem_statements hs he
    have hrows : maxNesting * (4 * e.longestChain + 1) ≤ maxNesting * (4 * m + 1) :=
      Nat.mul_le_mul_left _ (by omega)
    omega
  refine ⟨hbound, ?_, ?_⟩
  · rintro ⟨bound, hle⟩
    refine ⟨bound, fun ts hts s hs e he => ?_⟩
    exact Nat.le_trans e.longestChain_le_height (hle ts hts s hs e he)
  · rintro ⟨m, hm⟩
    exact ⟨_, hbound m hm⟩

/-- **No bound on the height holds for all parsed trees**: the sum with one operator
more than the bound goes past it, with nothing nested. -/
theorem no_bound_on_height :
    ¬ ∃ bound, ∀ ts, ∀ s ∈ (parse ts).statements, ∀ e ∈ s.expr?, e.height ≤ bound := by
  rintro ⟨bound, hle⟩
  have hmem : Stmt.expression (sumTree (bound + 1)) ∈
      (parse (sumTokens (bound + 1) ++ [semicolon] ++ [.eof 1])).statements := by
    rw [parse_sum]
    exact List.mem_singleton_self _
  have hheight := hle _ _ hmem _ rfl
  rw [height_sumTree] at hheight
  omega

end Program
end LoxLang
