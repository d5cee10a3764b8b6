import LoxLang.Proofs.Exactness

/-! # The nesting limit is exact

A rule that is run inside `d` groups and unary operators has room for `maxNesting - d`
more.  It builds just those of the trees it would build with all the room that nest no
deeper than that, and it leaves the same tokens behind them (`nesting_limit_is_exact`).
What stands beside an expression takes no room from it, since the nesting of a binary
operation is the greater one of its operands'.

Every rule reads its category within its room, so that the room shows in nothing but the
nesting of what is read (`run_eq_ok_iff_of_le`).
-/
namespace LoxLang.Grammar
open Rule

/-! ### Every rule reads its category -/

/-- A family of rules, one for each room, each of which reads the phrases of a category
that nest no deeper than its room. -/
def ReadsWithinRoom (rule : Nat → Rule Expr) (c : Category) (stop : List Kind) : Prop :=
  ∀ room, (rule room).Reads (Within c room) stop

theorem reads_primary : ReadsWithinRoom primary .primary [] := by
  intro room
  cases room with
  | zero => exact reads_primaryOf .full
  | succ room => exact reads_primaryOf (.inside (reads_equalityOf (reads_unary room)))

theorem reads_factor : ReadsWithinRoom factor (.binary .factor) Level.factor.continuations :=
  fun room => reads_factorOf (reads_unary room)

theorem reads_term : ReadsWithinRoom term (.binary .term) Level.term.continuations :=
  fun room => reads_termOf (reads_unary room)

theorem reads_comparison :
    ReadsWithinRoom comparison (.binary .comparison) Level.comparison.continuations :=
  fun room => reads_comparisonOf (reads_unary room)

theorem reads_equality :
    ReadsWithinRoom equality (.binary .equality) Level.equality.continuations :=
  fun room => reads_equalityOf (reads_unary room)

/-- The rules of expressions, from the loosest to the tightest. -/
def expressionRules : List (Nat → Rule Expr) :=
  [expression, equality, comparison, term, factor, unary, primary]

theorem exists_reads_of_mem {rule : Nat → Rule Expr} (h : rule ∈ expressionRules) :
    ∃ c stop, ReadsWithinRoom rule c stop := by
  simp only [expressionRules, List.mem_cons, List.not_mem_nil, or_false] at h
  rcases h with rfl | rfl | rfl | rfl | rfl | rfl | rfl
  · exact ⟨_, _, reads_expression⟩
  · exact ⟨_, _, reads_equality⟩
  · exact ⟨_, _, reads_comparison⟩
  · exact ⟨_, _, reads_term⟩
  · exact ⟨_, _, reads_factor⟩
  · exact ⟨_, _, reads_unary⟩
  · exact ⟨_, _, reads_primary⟩

/-! ### Room shows in the nesting only -/

/-- **Less room builds the same trees, but for those that nest too deep.** -/
theorem run_eq_ok_iff_of_le {rule : Nat → Rule Expr} {c : Category} {stop : List Kind}
    (h : ReadsWithinRoom rule c stop) {room more : Nat} (hle : room ≤ more)
    {ts rest : List Token} {e : Expr} :
    (rule room).run ts = (.ok e, rest) ↔
      (rule more).run ts = (.ok e, rest) ∧ e.nesting ≤ room := by
  rw [(h room).run_eq_ok_iff, (h more).run_eq_ok_iff]
  constructor
  · rintro ⟨us, hus, ⟨hderives, hnesting⟩, hrest⟩
    exact ⟨⟨us, hus, ⟨hderives, Nat.le_trans hnesting hle⟩, hrest⟩, hnesting⟩
  · rintro ⟨⟨us, hus, ⟨hderives, _⟩, hrest⟩, hnesting⟩
    exact ⟨us, hus, ⟨hderives, hnesting⟩, hrest⟩

/-- **The nesting limit is exact.**  Inside `d` groups and unary operators, a rule of
expressions builds a tree and leaves some tokens iff it does so inside none and the tree
nests at most `maxNesting - d` deep. -/
theorem nesting_limit_is_exact (rule : Nat → Rule Expr) (hrule : rule ∈ expressionRules)
    (d : Nat) (ts rest : List Token) (e : Expr) :
    (rule (roomAt d)).run ts = (.ok e, rest) ↔
      (rule (roomAt 0)).run ts = (.ok e, rest) ∧ e.nesting ≤ maxNesting - d := by
  obtain ⟨c, stop, hreads⟩ := exists_reads_of_mem hrule
  exact run_eq_ok_iff_of_le hreads (Nat.sub_le maxNesting d)

/-- In `-nil * (!nil)` one level stands beside two.  There is room for it inside 126
groups and unary operators, and none inside 127. -/
theorem nesting_limit_is_exact_product :
    let minus : Token := ⟨.minus, "-", none, 1⟩
    let bang : Token := ⟨.bang, "!", none, 1⟩
    let star : Token := ⟨.star, "*", none, 1⟩
    let nothing : Token := ⟨.kwNil, "nil", none, 1⟩
    let ts : List Token :=
      [minus, nothing, star, ⟨.leftParen, "(", none, 1⟩, bang, nothing,
        ⟨.rightParen, ")", none, 1⟩]
    let e : Expr :=
      .binary (.unary minus (.literal .nil)) star (.group (.unary bang (.literal .nil)))
    factor ∈ expressionRules ∧
      (factor (roomAt 0)).run ts = (.ok e, []) ∧
      (factor (roomAt 126)).run ts = (.ok e, []) ∧
      (factor (roomAt 127)).run ts ≠ (.ok e, []) := by
  intro minus bang star nothing ts e
  have hrule : factor ∈ expressionRules := by simp [expressionRules]
  have hminus : Derives .unary [minus, nothing] (.unary minus (.literal .nil)) :=
    .unary (Or.inr rfl) (.primary (.nil rfl))
  have hbang : Derives .unary [bang, nothing] (.unary bang (.literal .nil)) :=
    .unary (Or.inl rfl) (.primary (.nil rfl))
  have hgroup : Derives .primary
      ([⟨.leftParen, "(", none, 1⟩, bang, nothing] ++ [⟨.rightParen, ")", none, 1⟩]) _ :=
    .group rfl (hbang.binary .equality) rfl
  have hstar : star.kind ∈ Level.factor.operators := by decide
  have hproduct : Derives (.binary .factor) ts e :=
    .operation (hminus.binary .factor) hstar (.primary hgroup)
  have hrun : (factor (roomAt 0)).run ts = (.ok e, []) :=
    (reads_factor (roomAt 0)).run_ok ⟨hproduct, by decide⟩ free_nil
  refine ⟨hrule, hrun, ?_, fun hdeep => ?_⟩
  · exact (nesting_limit_is_exact factor hrule 126 ts [] e).mpr ⟨hrun, by decide⟩
  · have hnesting := ((nesting_limit_is_exact factor hrule 127 ts [] e).mp hdeep).2
    revert hnesting
    decide

end LoxLang.Grammar
