import LoxLang.Grammar

/-! # Derivations

The grammar as a relation between tokens and trees.  `Derives` says which tokens
write which expression at which level of the grammar, `DerivesDeclaration` and
`DerivesProgram` do the same for statements and lists of them.  None of the
relations says how to find a tree, and none bounds how deep trees go: that is
said of the tree, by `Expr.depths` and `Expr.nesting`.

The facts at the end are about the tokens of a derivation alone: which kinds a
phrase can start with, and that a semicolon ends a declaration and stands nowhere
else in it.
-/
namespace LoxLang

/-! ### How deep a tree goes -/

namespace Expr

/-- For each group and unary operator of an expression, how many other groups and
unary operators it stands inside. -/
def depths : Expr → List Nat
  | literal _ => []
  | var _ => []
  | unary _ operand => 0 :: operand.depths.map (· + 1)
  | binary left _ right => left.depths ++ right.depths
  | group inner => 0 :: inner.depths.map (· + 1)

/-- How many groups and unary operators stand inside each other. -/
def nesting : Expr → Nat
  | literal _ => 0
  | var _ => 0
  | unary _ operand => operand.nesting + 1
  | binary left _ right => max left.nesting right.nesting
  | group inner => inner.nesting + 1

/-- What encloses everything of depths `ds` adds a level. -/
theorem forall_enclosed_lt_iff {ds : List Nat} {m : Nat}
    (h : ∀ n, (∀ d ∈ ds, d < n) ↔ m ≤ n) (n : Nat) :
    (∀ d ∈ 0 :: ds.map (· + 1), d < n) ↔ m + 1 ≤ n := by
  cases n with
  | zero =>
    refine ⟨fun hd => absurd (hd 0 List.mem_cons_self) (Nat.lt_irrefl 0), fun hm => ?_⟩
    omega
  | succ n =>
    rw [Nat.succ_le_succ_iff, ← h n]
    simp

/-- Nothing stands too deep iff the nesting is in bounds. -/
theorem forall_depths_lt_iff (e : Expr) (n : Nat) :
    (∀ d ∈ e.depths, d < n) ↔ e.nesting ≤ n := by
  induction e generalizing n with
  | literal => simp [depths, nesting]
  | var => simp [depths, nesting]
  | unary _ operand ih => exact forall_enclosed_lt_iff ih n
  | binary left _ right ihl ihr =>
    rw [depths, nesting, Nat.max_le, ← ihl, ← ihr, List.forall_mem_append]
  | group inner ih => exact forall_enclosed_lt_iff ih n

end Expr

namespace Stmt

/-- For each group and unary operator of a statement, how many others it stands
inside. -/
def depths (s : Stmt) : List Nat := (s.expr?.map Expr.depths).getD []

/-- How many groups and unary operators of a statement stand inside each other. -/
def nesting (s : Stmt) : Nat := (s.expr?.map Expr.nesting).getD 0

theorem forall_depths_lt_iff (s : Stmt) (n : Nat) :
    (∀ d ∈ s.depths, d < n) ↔ s.nesting ≤ n := by
  unfold depths nesting
  cases s.expr? with
  | none => simp
  | some e => exact e.forall_depths_lt_iff n

end Stmt

namespace Grammar

/-! ### Expressions -/

/-- A level of binary operators. -/
inductive Level where
  | equality | comparison | term | factor
deriving Repr, DecidableEq

/-- A rule of the grammar that expressions are derived from. -/
inductive Category where
  | binary (level : Level)
  | unary
  | primary
deriving Repr, DecidableEq

namespace Level

/-- The operators of a level. -/
def operators : Level → List Kind
  | equality => [.bangEqual, .equalEqual]
  | comparison => [.greater, .greaterEqual, .less, .lessEqual]
  | term => [.minus, .plus]
  | factor => [.slash, .star]

/-- What the operands of a level are derived from. -/
def operand : Level → Category
  | equality => .binary comparison
  | comparison => .binary term
  | term => .binary factor
  | factor => .unary

end Level

/-- `Derives c ts e`: the tokens `ts` write the expression `e` as a phrase of `c`.

A binary level is read as `level := operand | level operator operand`, so that its
operators group to the left; a unary operator takes all that follows it in its
phrase, so that unary operators group to the right.  A number or a string stands
for its literal, and one without a literal stands for nothing. -/
inductive Derives : Category → List Token → Expr → Prop
  | operand {level : Level} {ts : List Token} {e : Expr}
      (h : Derives level.operand ts e) : Derives (.binary level) ts e
  | operation {level : Level} {ts us : List Token} {operator : Token} {left right : Expr}
      (hl : Derives (.binary level) ts left) (ho : operator.kind ∈ level.operators)
      (hr : Derives level.operand us right) :
      Derives (.binary level) (ts ++ operator :: us) (.binary left operator right)
  | unary {ts : List Token} {operator : Token} {operand : Expr}
      (ho : operator.kind = .bang ∨ operator.kind = .minus) (h : Derives .unary ts operand) :
      Derives .unary (operator :: ts) (.unary operator operand)
  | primary {ts : List Token} {e : Expr} (h : Derives .primary ts e) : Derives .unary ts e
  | constant {t : Token} {l : Literal} (hk : t.kind = .number ∨ t.kind = .string)
      (hl : t.literal = some l) : Derives .primary [t] (.literal l.toValue)
  | true {t : Token} (hk : t.kind = .kwTrue) : Derives .primary [t] (.literal (.bool true))
  | false {t : Token} (hk : t.kind = .kwFalse) : Derives .primary [t] (.literal (.bool false))
  | nil {t : Token} (hk : t.kind = .kwNil) : Derives .primary [t] (.literal .nil)
  | identifier {t : Token} (hk : t.kind = .identifier) : Derives .primary [t] (.var t)
  | group {ts : List Token} {opening closing : Token} {inner : Expr}
      (ho : opening.kind = .leftParen) (h : Derives (.binary .equality) ts inner)
      (hc : closing.kind = .rightParen) :
      Derives .primary (opening :: ts ++ [closing]) (.group inner)

/-- A unary expression is a phrase of every binary level. -/
theorem Derives.binary {ts : List Token} {e : Expr} (h : Derives .unary ts e) (level : Level) :
    Derives (.binary level) ts e := by
  have hfactor : Derives (.binary .factor) ts e := .operand h
  have hterm : Derives (.binary .term) ts e := .operand hfactor
  have hcomparison : Derives (.binary .comparison) ts e := .operand hterm
  cases level with
  | factor => exact hfactor
  | term => exact hterm
  | comparison => exact hcomparison
  | equality => exact .operand hcomparison

/-- The tokens `ts` write the expression `e`. -/
def DerivesExpression (ts : List Token) (e : Expr) : Prop := Derives (.binary .equality) ts e

/-! ### Statements -/

/-- The tokens write a statement that is no declaration. -/
inductive DerivesStatement : List Token → Stmt → Prop
  | print {ts : List Token} {keyword closing : Token} {e : Expr}
      (hk : keyword.kind = .kwPrint) (h : DerivesExpression ts e)
      (hc : closing.kind = .semicolon) :
      DerivesStatement (keyword :: ts ++ [closing]) (.print e)
  | expression {ts : List Token} {closing : Token} {e : Expr}
      (h : DerivesExpression ts e) (hc : closing.kind = .semicolon) :
      DerivesStatement (ts ++ [closing]) (.expression e)

/-- The tokens write a declaration or another statement. -/
inductive DerivesDeclaration : List Token → Stmt → Prop
  | bare {keyword name closing : Token} (hk : keyword.kind = .kwVar)
      (hn : name.kind = .identifier) (hc : closing.kind = .semicolon) :
      DerivesDeclaration [keyword, name, closing] (.declare name none)
  | initialized {ts : List Token} {keyword name equal closing : Token} {e : Expr}
      (hk : keyword.kind = .kwVar) (hn : name.kind = .identifier) (he : equal.kind = .equal)
      (h : DerivesExpression ts e) (hc : closing.kind = .semicolon) :
      DerivesDeclaration (keyword :: name :: equal :: ts ++ [closing]) (.declare name (some e))
  | statement {ts : List Token} {s : Stmt} (h : DerivesStatement ts s) : DerivesDeclaration ts s

/-- The expression of a statement is derived by itself. -/
theorem DerivesDeclaration.exists_derives {ts : List Token} {s : Stmt} {e : Expr}
    (h : DerivesDeclaration ts s) (he : e ∈ s.expr?) : ∃ us, DerivesExpression us e := by
  cases h with
  | bare => cases he
  | initialized _ _ _ h _ =>
    cases he
    exact ⟨_, h⟩
  | statement h =>
    cases h with
    | print _ h _ | expression h _ =>
      cases he
      exact ⟨_, h⟩

/-- The tokens write declarations one after another. -/
inductive DerivesProgram : List Token → List Stmt → Prop
  | nil : DerivesProgram [] []
  | cons {ts us : List Token} {s : Stmt} {ss : List Stmt} (h : DerivesDeclaration ts s)
      (hs : DerivesProgram us ss) : DerivesProgram (ts ++ us) (s :: ss)

/-! ### The tokens of a phrase -/

/-- The kinds that a primary expression can start with. -/
def primaryStarts : List Kind :=
  [.number, .string, .kwTrue, .kwFalse, .kwNil, .identifier, .leftParen]

/-- The kinds that a phrase of a category can start with. -/
def Category.starts : Category → List Kind
  | binary _ => [.bang, .minus] ++ primaryStarts
  | unary => [.bang, .minus] ++ primaryStarts
  | primary => primaryStarts

theorem Level.starts_operand (level : Level) :
    level.operand.starts = (Category.binary level).starts := by
  cases level <;> rfl

theorem Derives.exists_cons {c : Category} {ts : List Token} {e : Expr} (h : Derives c ts e) :
    ∃ t us, ts = t :: us ∧ t.kind ∈ c.starts := by
  induction h with
  | @operand level ts e _ ih => rwa [level.starts_operand] at ih
  | operation _ _ _ ihl _ =>
    obtain ⟨t, us, rfl, ht⟩ := ihl
    exact ⟨t, _, rfl, ht⟩
  | unary ho _ _ =>
    exact ⟨_, _, rfl, by rcases ho with ho | ho <;> simp [ho, Category.starts, primaryStarts]⟩
  | primary _ ih =>
    obtain ⟨t, us, rfl, ht⟩ := ih
    exact ⟨t, us, rfl, List.mem_append_right _ ht⟩
  | constant hk _ =>
    exact ⟨_, _, rfl, by rcases hk with hk | hk <;> simp [hk, Category.starts, primaryStarts]⟩
  | true hk | false hk | nil hk | identifier hk =>
    exact ⟨_, _, rfl, by simp [hk, Category.starts, primaryStarts]⟩
  | group ho _ _ _ => exact ⟨_, _, rfl, by simp [ho, Category.starts, primaryStarts]⟩

/-- No token is a semicolon or the end of the input. -/
def Unbroken (ts : List Token) : Prop := ∀ t ∈ ts, t.kind ≠ .semicolon ∧ t.kind ≠ .eof

theorem unbroken_append {ts us : List Token} :
    Unbroken (ts ++ us) ↔ Unbroken ts ∧ Unbroken us := List.forall_mem_append

theorem unbroken_cons {t : Token} {ts : List Token} :
    Unbroken (t :: ts) ↔ (t.kind ≠ .semicolon ∧ t.kind ≠ .eof) ∧ Unbroken ts :=
  List.forall_mem_cons

theorem unbroken_singleton {t : Token} {k : Kind} (hk : t.kind = k) (h₁ : k ≠ .semicolon)
    (h₂ : k ≠ .eof) : Unbroken [t] :=
  List.forall_mem_singleton.mpr ⟨hk ▸ h₁, hk ▸ h₂⟩

theorem Level.unbroken_operator {level : Level} {t : Token} (h : t.kind ∈ level.operators) :
    t.kind ≠ .semicolon ∧ t.kind ≠ .eof := by
  constructor <;> intro hk <;> rw [hk] at h <;> cases level <;> simp [operators] at h

/-- **An expression holds no semicolon**, nor the end of the input. -/
theorem Derives.unbroken {c : Category} {ts : List Token} {e : Expr} (h : Derives c ts e) :
    Unbroken ts := by
  induction h with
  | operand _ ih => exact ih
  | operation _ ho _ ihl ihr =>
    exact unbroken_append.mpr ⟨ihl, unbroken_cons.mpr ⟨Level.unbroken_operator ho, ihr⟩⟩
  | unary ho _ ih =>
    refine unbroken_cons.mpr ⟨?_, ih⟩
    rcases ho with ho | ho <;> simp [ho]
  | primary _ ih => exact ih
  | constant hk _ =>
    rcases hk with hk | hk <;> exact unbroken_singleton hk (by decide) (by decide)
  | true hk | false hk | nil hk | identifier hk =>
    exact unbroken_singleton hk (by decide) (by decide)
  | group ho _ hc ih =>
    exact unbroken_append.mpr ⟨unbroken_cons.mpr ⟨by simp [ho], ih⟩,
      unbroken_singleton hc (by decide) (by decide)⟩

/-- **A declaration ends with its only semicolon.** -/
theorem DerivesDeclaration.exists_concat {ts : List Token} {s : Stmt}
    (h : DerivesDeclaration ts s) :
    ∃ us closing, ts = us ++ [closing] ∧ closing.kind = .semicolon ∧ Unbroken us := by
  cases h with
  | @bare keyword name closing hk hn hc =>
    exact ⟨[keyword, name], closing, rfl, hc, unbroken_cons.mpr
      ⟨by simp [hk], unbroken_singleton hn (by decide) (by decide)⟩⟩
  | @initialized ts keyword name equal closing e hk hn he h hc =>
    refine ⟨keyword :: name :: equal :: ts, closing, rfl, hc, ?_⟩
    exact unbroken_cons.mpr ⟨by simp [hk], unbroken_cons.mpr
      ⟨by simp [hn], unbroken_cons.mpr ⟨by simp [he], h.unbroken⟩⟩⟩
  | statement h =>
    cases h with
    | @print ts keyword closing e hk h hc =>
      exact ⟨keyword :: ts, closing, rfl, hc, unbroken_cons.mpr ⟨by simp [hk], h.unbroken⟩⟩
    | @expression ts closing e h hc => exact ⟨ts, closing, rfl, hc, h.unbroken⟩

end Grammar
end LoxLang
