import LoxLang.Proofs.FewestDigits
import LoxLang.Proofs.NumberReading
import Mathlib.Algebra.Order.Field.Basic
import Mathlib.Algebra.Order.Field.Rat
import Mathlib.Data.Nat.Factorization.Basic
import Mathlib.Tactic.FieldSimp
import Mathlib.Tactic.Linarith
import Mathlib.Tactic.Positivity

/-! # The shortest decimal of a magnitude

Decimals and magnitudes are rational numbers, and rounding is what it is said to be
(`RoundsTo`).  A decimal rounds to a magnitude if it lies in the window
(`roundsTo_value_iff_holds`).

A decimal with any number of places is a point of some grid in smaller units, and its
significant digits are those of the multiplier there (`exists_grid_of_roundsTo`).  So what is
known of the coarsest grid says that the decimal found is the shortest, and among the shortest
the nearest (`shortest_shortest`).
-/
namespace LoxLang

/-- How many digits of `d` are significant: those of its units but for the zeros they end
with. -/
def Decimal.significant (d : Decimal) : Nat :=
  ((Nat.digits 10 d.units).dropWhile (· == 0)).length

/-- Behind the zeros that the units end with, all digits are significant. -/
theorem Decimal.significant_eq {d : Decimal} {m t : Nat} (hd : d.units = m * 10 ^ t)
    (hm : ¬ 10 ∣ m) : d.significant = (Nat.digits 10 m).length := by
  have hpos : 0 < m := Binary64.pos_of_not_ten_dvd hm
  have hzeros : ∀ c ∈ List.replicate t 0, (c == 0) = true := by
    intro c hc
    rw [List.eq_of_mem_replicate hc, beq_self_eq_true]
  have hlast : ¬ (m % 10 == 0) = true := by
    rw [beq_iff_eq]
    omega
  rw [significant, hd, Nat.mul_comm, Nat.digits_base_pow_mul (by decide) hpos,
    List.dropWhile_append_of_pos hzeros, Nat.digits_def' (by decide) hpos,
    List.dropWhile_cons, if_neg hlast]

namespace Binary64

variable {k : Nat} {d : Decimal}

theorem value_eq (k : Nat) : value k = exactUnits k / 10 ^ 1074 := by
  unfold value exactUnits
  generalize 1074 = e
  rw [Nat.pow_eq, Nat.cast_mul, Nat.cast_pow, Nat.cast_ofNat, show (10 : ℚ) = 2 * 5 by norm_num,
    mul_pow, mul_div_mul_right _ _ (by positivity)]

/-- A decimal rounds to a magnitude if the window, in units that fit it, holds it. -/
theorem roundsTo_value_iff_holds :
    RoundsTo d.value k ↔
      ((window k).scale d.places).holds (d.units * Nat.pow 10 1074) = true :=
  roundsTo_value_iff_near.trans (near_iff_holds_scale d)

/-! ### The shortest decimal -/

/-- `d` rounds to the magnitude numbered `k`, no decimal with fewer significant digits does,
and none with as many is nearer. -/
structure Shortest (d : Decimal) (k : Nat) : Prop where
  rounds : RoundsTo d.value k
  fewest : ∀ e : Decimal, RoundsTo e.value k → d.significant ≤ e.significant
  nearest : ∀ e : Decimal, RoundsTo e.value k → e.significant = d.significant →
    |d.value - value k| ≤ |e.value - value k|

theorem abs_sub_cast (a b : Nat) : |(a : ℚ) - b| = (Nat.dist b a : Nat) := by
  rcases Nat.le_total a b with hle | hle
  · rw [Nat.dist_eq_sub_of_le_right hle, Nat.cast_sub hle, abs_sub_comm, abs_of_nonneg]
    exact sub_nonneg.mpr (Nat.cast_le.mpr hle)
  · rw [Nat.dist_eq_sub_of_le hle, Nat.cast_sub hle, abs_of_nonneg]
    exact sub_nonneg.mpr (Nat.cast_le.mpr hle)

/-- The distance of a decimal from a magnitude, counted in units that both are made of. -/
theorem abs_value_sub_value (d : Decimal) (k : Nat) :
    |d.value - value k| =
      (Nat.dist (exactUnits k * 10 ^ d.places) (d.units * Nat.pow 10 1074) : Nat) /
        (10 ^ 1074 * 10 ^ d.places) := by
  rw [value_eq, Decimal.value]
  generalize 1074 = e, exactUnits k = n
  have hdiff : (d.units / 10 ^ d.places - n / 10 ^ e : ℚ) =
      ((d.units * Nat.pow 10 e : Nat) - (n * 10 ^ d.places : Nat)) /
        (10 ^ e * 10 ^ d.places) := by
    rw [Nat.pow_eq]
    push_cast
    field_simp
  have hpos : (0 : ℚ) < 10 ^ e * 10 ^ d.places := by positivity
  rw [hdiff, abs_div, abs_sub_cast, abs_of_pos hpos]

theorem abs_value_sub_value_of_counts {c : Nat} (h : d.Counts c) (k : Nat) :
    |d.value - value k| = (Nat.dist (exactUnits k) c : Nat) / 10 ^ 1074 := by
  unfold Decimal.Counts at h
  rw [abs_value_sub_value, h, Nat.dist_mul_right]
  generalize 1074 = e, exactUnits k = n
  push_cast
  rw [mul_div_mul_right _ _ (by positivity)]

/-- A decimal that rounds to a magnitude above zero is not zero. -/
theorem units_pos_of_roundsTo (hk : 0 < k) (h : RoundsTo d.value k) : 0 < d.units := by
  rw [roundsTo_value_iff_holds, Window.holds_iff] at h
  have hpos := exactUnits_pos hk
  have hlow : 0 < (window k).low * 10 ^ d.places := by
    apply Nat.mul_pos _ (Nat.pow_pos (by decide))
    unfold window
    dsimp only
    omega
  generalize 1074 = e at h
  apply Nat.pos_of_ne_zero
  intro hzero
  rw [hzero, Nat.zero_mul] at h
  exact absurd h.1 (Nat.not_le.mpr hlow)

/-- A decimal that rounds to a magnitude above zero is a point of the window, and its
significant digits are those of the multiplier on the coarsest grid it lies on. -/
theorem exists_grid_of_roundsTo (hk : 0 < k) (h : RoundsTo d.value k) :
    ∃ m i, 0 < m ∧ d.units * Nat.pow 10 1074 = m * 10 ^ i ∧
      d.significant = (Nat.digits 10 m).length ∧
      ((window k).scale d.places).holds (m * 10 ^ i) = true := by
  have hpos := units_pos_of_roundsTo hk h
  obtain ⟨t, m, hm, hunits⟩ := Nat.exists_eq_pow_mul_and_not_dvd hpos.ne' 10 (by decide)
  rw [Nat.mul_comm] at hunits
  rw [roundsTo_value_iff_holds] at h
  generalize 1074 = e at h ⊢
  have hgrid : d.units * Nat.pow 10 e = m * 10 ^ (t + e) := by
    rw [hunits, Nat.pow_add, Nat.mul_assoc, Nat.pow_eq]
  refine ⟨m, t + e, pos_of_not_ten_dvd hm, hgrid, Decimal.significant_eq hunits hm, ?_⟩
  rwa [← hgrid]

theorem significant_ofGrid {m : Nat} (hm : ¬ 10 ∣ m) (j : Nat) :
    (ofGrid m j).significant = (Nat.digits 10 m).length :=
  Decimal.significant_eq rfl hm

theorem shortest_zero : Shortest (shortest 0) 0 := by
  have hvalue : (shortest 0).value = value 0 := by
    rw [value_zero, Decimal.value]
    exact zero_div _
  have hnone : (shortest 0).significant = 0 := by decide
  refine ⟨⟨?_, ?_⟩, ?_, ?_⟩
  · intro j
    rw [hvalue, sub_self, abs_zero]
    exact abs_nonneg _
  · intro j _ _
    rfl
  · intro e _
    rw [hnone]
    exact Nat.zero_le _
  · intro e _ _
    rw [hvalue, sub_self, abs_zero]
    exact abs_nonneg _

/-- **The decimal that is found is the shortest.** -/
theorem shortest_shortest (k : Nat) : Shortest (shortest k) k := by
  rcases Nat.eq_zero_or_pos k with rfl | hk
  · exact shortest_zero
  · obtain ⟨m, j, hshortest, hcoarsest⟩ := exists_coarsest_shortest hk
    have hcounts := counts_ofGrid m j
    rw [hshortest]
    refine ⟨?_, ?_, ?_⟩
    · rw [roundsTo_value_iff_near, near_iff_holds hcounts]
      exact hcoarsest.holds
    · intro e he
      obtain ⟨m', i, hpos, -, hdigits, hholds⟩ := exists_grid_of_roundsTo hk he
      rw [significant_ofGrid hcoarsest.not_dvd, hdigits]
      exact (hcoarsest.scale e.places).length_digits_le hpos hholds
    · intro e he hsame
      obtain ⟨m', i, -, hunits, hdigits, hholds⟩ := exists_grid_of_roundsTo hk he
      rw [significant_ofGrid hcoarsest.not_dvd, hdigits] at hsame
      have hdist := hcoarsest.dist_le hk hholds hsame.symm
      rw [abs_value_sub_value_of_counts hcounts, abs_value_sub_value, hunits]
      generalize 1074 = places
      rw [← mul_div_mul_right _ _ (show (10 : ℚ) ^ e.places ≠ 0 by positivity)]
      refine div_le_div_of_nonneg_right ?_ (by positivity)
      exact_mod_cast hdist

end Binary64
end LoxLang
