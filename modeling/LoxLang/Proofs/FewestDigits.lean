import LoxLang.Proofs.GridSearch
import Mathlib.Data.Nat.Digits.Lemmas

/-! # The coarsest grid has the fewest digits

A point of a coarser grid has fewer digits in front of the zeros it ends with, so the search
from the coarse end finds the fewest digits there can be (`Coarsest.length_digits_le`).  The
reason is that numbers of different lengths have a power of ten between them, and that lies
on a grid coarser than the longer one's.

Of the points with that many digits the one found is also the nearest (`Coarsest.dist_le`).
Those on its own grid are no nearer by the way the search chooses.  Another grid can only be
finer, and then both points have a single digit and a power of ten stands between them.  For
the power to be the further one the window would have to be wide, and that is so only at the
smallest magnitudes, where the distances are known numbers (`ten_pow_nearer`).

Decimals that are compared with the one found may have any number of places, so the second
statement is about a window in smaller units.
-/
namespace LoxLang.Binary64

variable {w : Window} {n m j i k m' : Nat}

theorem pos_of_not_ten_dvd (h : ¬ 10 ∣ m) : 0 < m := by
  apply Nat.pos_of_ne_zero
  rintro rfl
  exact h (Nat.dvd_zero 10)

namespace Coarsest

/-- **No point of the window has fewer digits** than the one on the coarsest grid. -/
theorem length_digits_le (h : Coarsest w n m j) (hpos : 0 < m')
    (hm' : w.holds (m' * 10 ^ i) = true) :
    (Nat.digits 10 m).length ≤ (Nat.digits 10 m').length := by
  by_contra hlt
  have hm := (Nat.lt_digits_length_iff (by decide) m).mp (Nat.lt_of_not_le hlt)
  have hlength : 0 < (Nat.digits 10 m').length :=
    (Nat.lt_digits_length_iff (by decide) m').mpr hpos
  have hexponents :=
    h.lt_of_pow_le hlength hm (Nat.lt_base_pow_length_digits (by decide)) hm'
  have hle := h.le_of_holds hm'
  omega

/-- A point with as many digits lies on the same grid, or both have only one. -/
theorem eq_or_of_length_digits_eq (h : Coarsest w n m j) (hm' : w.holds (m' * 10 ^ i) = true)
    (hlength : (Nat.digits 10 m).length = (Nat.digits 10 m').length) :
    i = j ∨ (i < j ∧ m' < 10) := by
  rcases Nat.eq_or_lt_of_le (h.le_of_holds hm') with heq | hlt
  · exact .inl heq
  · refine .inr ⟨hlt, ?_⟩
    rw [← Nat.pow_one 10, ← Nat.digits_length_le_iff (by decide), ← hlength]
    by_contra hlong
    obtain ⟨a, ha⟩ : ∃ a, (Nat.digits 10 m).length = a + 1 :=
      Nat.exists_eq_succ_of_ne_zero (by omega)
    have hm : 10 ^ a ≤ m := (Nat.lt_digits_length_iff (by decide) m).mp (by omega)
    have hlt' : m' < 10 ^ (a + 1) :=
      (Nat.digits_length_le_iff (by decide) m').mp (by omega)
    have := h.lt_of_pow_le (by omega) hm hlt' hm'
    omega

end Coarsest

/-! ### A power of ten and the digit below it -/

theorem exactUnits_eq (k : Nat) :
    exactUnits k = steps k * (2 ^ doublings k * Nat.pow 5 1074) := by
  rw [exactUnits, scaled_eq, Nat.mul_assoc]

/-- A magnitude near nine points of a grid that is finer than its steps is less than ten steps,
and so one of the smallest. -/
theorem doublings_eq_zero_of_wide (hnine : (window k).holds (9 * 10 ^ i) = true)
    (hwide : 10 ^ i < 2 ^ doublings k * Nat.pow 5 1074) : doublings k = 0 := by
  have hlow := (holds_window_iff.mp hnine).1
  have hpred := exactUnits_le_pred k
  have heq := exactUnits_eq k
  generalize 2 ^ doublings k * Nat.pow 5 1074 = step at *
  have hsteps : steps k < 10 := by
    by_contra hge
    have := Nat.mul_le_mul_right step (Nat.le_of_not_lt hge)
    omega
  by_contra hpos
  have := le_steps (Nat.pos_of_ne_zero hpos)
  omega

theorem exactUnits_of_doublings_eq_zero (h : doublings k = 0) :
    exactUnits k = k * Nat.pow 5 1074 := by
  have hsteps := doublings_add_steps k
  have heq := exactUnits_eq k
  generalize Nat.pow 5 1074 = unit at *
  rw [h, Nat.zero_mul, Nat.zero_add] at hsteps
  rw [heq, h, hsteps, Nat.pow_zero, Nat.one_mul]

theorem five_pow_bounds :
    18 * 10 ^ 749 < Nat.pow 5 1074 ∧ Nat.pow 5 1074 < 10 ^ 751 ∧
      3 * Nat.pow 5 1074 < 20 * 10 ^ 750 ∧ 19 * 10 ^ 750 ≤ 4 * Nat.pow 5 1074 := by
  decide +kernel

/-- Among the smallest magnitudes only the second is near both a power of ten and the digit
below it. -/
theorem ten_pow_nearer_of_smallest (hk : 0 < k) (hlow : k * Nat.pow 5 1074 ≤ 18 * 10 ^ i)
    (hhigh : 20 * 10 ^ i ≤ 2 * (k * Nat.pow 5 1074) + Nat.pow 5 1074)
    (hwide : 10 ^ i < Nat.pow 5 1074) : 19 * 10 ^ i ≤ 2 * (k * Nat.pow 5 1074) := by
  obtain ⟨hmore, hless, hone, htwo⟩ := five_pow_bounds
  generalize Nat.pow 5 1074 = unit at *
  have hle : unit ≤ k * unit := Nat.le_mul_of_pos_left unit hk
  obtain rfl : i = 750 := by
    rcases Nat.lt_trichotomy i 750 with hlt | heq | hgt
    · have := Nat.pow_le_pow_right (n := 10) (by decide) (show i ≤ 749 by omega)
      omega
    · exact heq
    · have := Nat.pow_le_pow_right (n := 10) (by decide) (show 751 ≤ i by omega)
      omega
  have hsecond : 2 ≤ k := by
    by_contra hlt
    obtain rfl : k = 1 := by omega
    omega
  have := Nat.mul_le_mul_right unit hsecond
  omega

/-- **A power of ten is nearer than the digit below it**, if a window holds both.  That is
clear where the steps are no wider than the grid. -/
theorem ten_pow_nearer (hk : 0 < k) (hnine : (window k).holds (9 * 10 ^ i) = true)
    (hten : (window k).holds (1 * 10 ^ (i + 1)) = true) : 19 * 10 ^ i ≤ 2 * exactUnits k := by
  have hlow := (holds_window_iff.mp hnine).1
  have hhigh := (holds_window_iff.mp hten).2.1
  rw [exactUnits_succ, Nat.one_mul, Nat.pow_succ] at hhigh
  rcases Nat.lt_or_ge (10 ^ i) (2 ^ doublings k * Nat.pow 5 1074) with hwide | hnarrow
  · have hzero := doublings_eq_zero_of_wide hnine hwide
    have hexact := exactUnits_of_doublings_eq_zero hzero
    have hsmallest := ten_pow_nearer_of_smallest (i := i) hk
    generalize Nat.pow 5 1074 = unit at *
    rw [hzero, Nat.pow_zero, Nat.one_mul] at hwide hhigh
    rw [hexact] at hlow hhigh ⊢
    exact hsmallest (by omega) (by omega) hwide
  · omega

/-! ### Windows in smaller units -/

namespace Coarsest

theorem scale (h : Coarsest w n m j) (p : Nat) :
    Coarsest (w.scale p) (n * 10 ^ p) m (j + p) := by
  have hshift (m' i : Nat) : m' * 10 ^ (i + p) = m' * 10 ^ i * 10 ^ p := by
    rw [Nat.pow_add, Nat.mul_assoc]
  refine ⟨?_, ?_, ?_⟩
  · rw [hshift, Window.holds_scale, h.holds]
  · intro i hi m'
    obtain ⟨i', rfl⟩ : ∃ i', i = i' + p := ⟨i - p, by omega⟩
    rw [hshift, Window.holds_scale, h.coarsest i' (by omega)]
  · intro m' hm'
    rw [hshift, Window.holds_scale] at hm'
    rw [hshift, hshift, Nat.dist_mul_right, Nat.dist_mul_right]
    exact Nat.mul_le_mul_right _ (h.nearest m' hm')

/-- Nothing of one digit on a finer grid is nearer. -/
theorem dist_le_of_lt_ten (h : Coarsest (window k) (exactUnits k) m (j + 1)) (hk : 0 < k)
    {p : Nat} (hi : i ≤ j + p) (hten : m' < 10)
    (hm' : ((window k).scale p).holds (m' * 10 ^ i) = true) :
    Nat.dist (exactUnits k) (m * 10 ^ (j + 1)) * 10 ^ p ≤
      Nat.dist (exactUnits k * 10 ^ p) (m' * 10 ^ i) := by
  have hpos : 0 < m := pos_of_not_ten_dvd h.not_dvd
  have hlow : m' * 10 ^ i ≤ 9 * 10 ^ j * 10 ^ p := by
    rw [Nat.mul_assoc, ← Nat.pow_add]
    exact Nat.mul_le_mul (by omega) (Nat.pow_le_pow_right (by decide) hi)
  have hmiddle : 9 * 10 ^ j ≤ 1 * 10 ^ (j + 1) := by
    rw [Nat.pow_succ]
    omega
  have hhigh : 1 * 10 ^ (j + 1) ≤ m * 10 ^ (j + 1) := Nat.mul_le_mul_right _ hpos
  -- both lie between the two points, so the window holds them
  have hfound : ((window k).scale p).holds (m * 10 ^ (j + 1) * 10 ^ p) = true := by
    rw [Window.holds_scale, h.holds]
  have hnine : (window k).holds (9 * 10 ^ j) = true := by
    rw [← Window.holds_scale _ p]
    exact Window.holds_of_between hm' hfound hlow
      (Nat.mul_le_mul_right _ (Nat.le_trans hmiddle hhigh))
  have hpower : (window k).holds (1 * 10 ^ (j + 1)) = true :=
    Window.holds_of_between hnine h.holds hmiddle hhigh
  have hnearer := ten_pow_nearer hk hnine hpower
  have hdist : Nat.dist (exactUnits k) (m * 10 ^ (j + 1)) ≤ exactUnits k - 9 * 10 ^ j := by
    refine Nat.le_trans (h.nearest 1 hpower) ?_
    rw [Nat.one_mul, Nat.pow_succ, Nat.dist]
    omega
  calc Nat.dist (exactUnits k) (m * 10 ^ (j + 1)) * 10 ^ p
      ≤ (exactUnits k - 9 * 10 ^ j) * 10 ^ p := Nat.mul_le_mul_right _ hdist
    _ = exactUnits k * 10 ^ p - 9 * 10 ^ j * 10 ^ p := Nat.sub_mul _ _ _
    _ ≤ Nat.dist (exactUnits k * 10 ^ p) (m' * 10 ^ i) := by
        unfold Nat.dist
        omega

/-- **No point with as many digits is nearer**, on whatever grid it lies. -/
theorem dist_le (h : Coarsest (window k) (exactUnits k) m j) (hk : 0 < k) {p : Nat}
    (hm' : ((window k).scale p).holds (m' * 10 ^ i) = true)
    (hlength : (Nat.digits 10 m).length = (Nat.digits 10 m').length) :
    Nat.dist (exactUnits k) (m * 10 ^ j) * 10 ^ p ≤
      Nat.dist (exactUnits k * 10 ^ p) (m' * 10 ^ i) := by
  rcases (h.scale p).eq_or_of_length_digits_eq hm' hlength with rfl | ⟨hlt, hten⟩
  · have hnearest := (h.scale p).nearest m' hm'
    rw [Nat.pow_add, ← Nat.mul_assoc, Nat.dist_mul_right] at hnearest
    rwa [Nat.pow_add]
  · cases j with
    | zero =>
      have hself : m * 10 ^ 0 = exactUnits k :=
        h.eq_of_dvd (holds_exactUnits k) (Nat.pow_zero 10 ▸ Nat.one_dvd _)
      rw [hself, Nat.dist_self, Nat.zero_mul]
      exact Nat.zero_le _
    | succ j => exact h.dist_le_of_lt_ten hk (by omega) hten hm'

end Coarsest

end LoxLang.Binary64
