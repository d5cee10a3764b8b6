import LoxLang.Number
import LoxLang.Proofs.Rounding

/-! # Written magnitudes read back

A decimal that lies in the window of a magnitude is near it, and so rounds to it
(`Binary64.nearest_of_holds`).  Both ways of writing a magnitude stay in its window: the
shortest decimal because the search takes a grid point only if the window holds it and
ends at the magnitude itself, and the digits of a whole number because they leave nothing
out.  So either decimal rounds to the magnitude it was written for
(`Binary64.nearest_shortest`, `Number.nearest_literalDecimal`).
-/
namespace LoxLang

open Binary64

/-- `d` is `c` units of `10 ^ (-1074)`. -/
def Decimal.Counts (d : Decimal) (c : Nat) : Prop :=
  d.units * Nat.pow 10 1074 = c * 10 ^ d.places

namespace Binary64

variable {d : Decimal} {c k n j : Nat} {w : Window}

/-! ### The window is what is near -/

theorem Window.holds_iff :
    w.holds c = true ↔
      w.low ≤ 2 * c ∧ 2 * c ≤ w.high ∧ (w.closed = false → w.low < 2 * c ∧ 2 * c < w.high) := by
  unfold Window.holds
  cases w.closed
  · simp
    omega
  · simp

theorem closed_window : (window k).closed = false ↔ k % 2 = 1 := by
  unfold window
  simp

theorem holds_window_iff :
    (window k).holds c = true ↔
      exactUnits (k - 1) + exactUnits k ≤ 2 * c ∧ 2 * c ≤ exactUnits k + exactUnits (k + 1) ∧
        (k % 2 = 1 → exactUnits (k - 1) + exactUnits k < 2 * c ∧
          2 * c < exactUnits k + exactUnits (k + 1)) := by
  rw [Window.holds_iff, closed_window]
  rfl

/-- The window in units that are `10 ^ p` times smaller. -/
def Window.scale (w : Window) (p : Nat) : Window where
  low := w.low * 10 ^ p
  high := w.high * 10 ^ p
  closed := w.closed

theorem Window.holds_scale (w : Window) (p c : Nat) :
    (w.scale p).holds (c * 10 ^ p) = w.holds c := by
  have hpos : 0 < 10 ^ p := Nat.pow_pos (by decide)
  unfold holds scale
  simp only [← Nat.mul_assoc, Nat.mul_le_mul_right_iff hpos, Nat.mul_lt_mul_right hpos]

theorem pow_ten_eq (e : Nat) : Nat.pow 10 e = Nat.pow 2 e * Nat.pow 5 e := Nat.mul_pow 2 5 e

/-- **The window of a magnitude holds the decimals that are near it**, however many places
they have. -/
theorem near_iff_holds_scale (d : Decimal) :
    Near (d.units * Nat.pow 2 1074) (10 ^ d.places) k ↔
      ((window k).scale d.places).holds (d.units * Nat.pow 10 1074) = true := by
  rw [near_iff, Window.holds_iff]
  show _ ↔ _ ∧ _ ∧ ((window k).closed = false → _)
  rw [closed_window]
  unfold Window.scale window exactUnits
  -- nothing depends on which power it is
  generalize 1074 = e
  have hf : 0 < Nat.pow 5 e := Nat.pow_pos (by decide)
  have hmid (a b : Nat) :
      (scaled a * Nat.pow 5 e + scaled b * Nat.pow 5 e) * 10 ^ d.places =
        (scaled a + scaled b) * 10 ^ d.places * Nat.pow 5 e := by
    ring
  have hdec : 2 * (d.units * Nat.pow 10 e) = 2 * (d.units * Nat.pow 2 e) * Nat.pow 5 e := by
    rw [pow_ten_eq]
    ring
  simp only [hmid, hdec, Nat.mul_le_mul_right_iff hf, Nat.mul_lt_mul_right hf]

theorem near_iff_holds (h : d.Counts c) :
    Near (d.units * Nat.pow 2 1074) (10 ^ d.places) k ↔ (window k).holds c = true := by
  rw [near_iff_holds_scale, h, Window.holds_scale]

/-- **A decimal in the window of a finite magnitude rounds to it.** -/
theorem nearest_of_holds (hk : k < infinity) (hd : d.Counts c)
    (hc : (window k).holds c = true) : nearest d = k :=
  (nearest_of_near ((near_iff_holds hd).mpr hc)).trans (Nat.min_eq_left (Nat.le_of_lt hk))

theorem exactUnits_lt_succ (k : Nat) : exactUnits k < exactUnits (k + 1) := by
  unfold exactUnits
  generalize 1074 = e
  exact Nat.mul_lt_mul_of_pos_right (scaled_lt_succ k) (Nat.pow_pos (by decide))

/-- A magnitude lies in its own window. -/
theorem holds_exactUnits (k : Nat) : (window k).holds (exactUnits k) = true := by
  have habove := exactUnits_lt_succ k
  rw [holds_window_iff]
  cases k with
  | zero =>
    rw [Nat.zero_sub]
    exact ⟨by omega, by omega, nofun⟩
  | succ j =>
    have hbelow := exactUnits_lt_succ j
    rw [Nat.add_sub_cancel]
    exact ⟨by omega, by omega, fun _ => ⟨by omega, by omega⟩⟩

/-! ### The search stays in the window -/

theorem counts_ofGrid (m j : Nat) : (ofGrid m j).Counts (m * Nat.pow 10 j) := by
  unfold Decimal.Counts ofGrid
  dsimp only
  generalize 1074 = e
  have hexponents : j - e + e = j + (e - j) := by omega
  calc m * 10 ^ (j - e) * 10 ^ e
      = m * 10 ^ (j - e + e) := by rw [Nat.pow_add, Nat.mul_assoc]
    _ = m * 10 ^ j * 10 ^ (e - j) := by rw [hexponents, Nat.pow_add, Nat.mul_assoc]

/-- A grid point that is taken lies in the window. -/
theorem holds_of_onGrid? {m : Nat} (h : onGrid? w n j = some m) :
    w.holds (m * Nat.pow 10 j) = true := by
  have habove : n / Nat.pow 10 j * Nat.pow 10 j + Nat.pow 10 j =
      (n / Nat.pow 10 j + 1) * Nat.pow 10 j := (Nat.succ_mul _ _).symm
  unfold onGrid? at h
  dsimp only at h
  rw [habove] at h
  split at h
  · cases h
    split <;> assumption
  · cases h
    assumption
  · cases h
    assumption
  · cases h

/-- **The search ends in the window.** -/
theorem search_counts (hn : w.holds n = true) (j : Nat) :
    ∃ c, (search w n j).Counts c ∧ w.holds c = true := by
  induction j with
  | zero =>
    refine ⟨n, ?_, hn⟩
    have hgrid := counts_ofGrid n 0
    rwa [show n * Nat.pow 10 0 = n from Nat.mul_one n] at hgrid
  | succ j ih =>
    rw [search]
    cases hgrid : onGrid? w n (j + 1) with
    | none => exact ih
    | some m => exact ⟨_, counts_ofGrid m (j + 1), holds_of_onGrid? hgrid⟩

theorem shortest_counts (k : Nat) :
    ∃ c, (shortest k).Counts c ∧ (window k).holds c = true := by
  unfold shortest
  split
  · rename_i hk
    subst hk
    refine ⟨exactUnits 0, ?_, holds_exactUnits 0⟩
    unfold Decimal.Counts exactUnits
    rw [scaled_zero]
    generalize 1074 = e
    simp
  · exact search_counts (holds_exactUnits k) _

/-- **The shortest decimal of a magnitude rounds to it.** -/
theorem nearest_shortest (hk : k < infinity) : nearest (shortest k) = k := by
  obtain ⟨c, hcounts, hholds⟩ := shortest_counts k
  exact nearest_of_holds hk hcounts hholds

end Binary64

/-! ### Whole numbers in full -/

theorem Binary64.whole?_eq_some_iff {k n : Nat} :
    whole? k = some n ↔ scaled k = n * Nat.pow 2 1074 := by
  unfold whole?
  generalize 1074 = e
  constructor
  · intro h
    split at h
    · rename_i hmod
      cases h
      exact (Nat.div_mul_cancel (Nat.dvd_of_mod_eq_zero hmod)).symm
    · cases h
  · intro h
    have hpos : 0 < Nat.pow 2 e := Nat.pow_pos (by decide)
    rw [h, Nat.mul_mod_left, if_pos rfl, Nat.mul_div_cancel n hpos]

theorem Binary64.exactUnits_of_whole? {k n : Nat} (h : whole? k = some n) :
    exactUnits k = n * Nat.pow 10 1074 := by
  have hscaled := whole?_eq_some_iff.mp h
  unfold exactUnits
  generalize 1074 = e at *
  rw [hscaled, pow_ten_eq, Nat.mul_assoc]

/-- All digits of a whole number and a zero behind the point leave nothing out. -/
theorem Binary64.counts_whole? {k n : Nat} (h : whole? k = some n) :
    (⟨n * 10, 1⟩ : Decimal).Counts (exactUnits k) := by
  unfold Decimal.Counts
  rw [exactUnits_of_whole? h, Nat.pow_one, Nat.mul_right_comm]

/-- **The decimal of a literal rounds to the magnitude it shows.** -/
theorem Number.nearest_literalDecimal {k : Nat} (hk : k < infinity) :
    nearest (literalDecimal k) = k := by
  unfold literalDecimal
  split
  · rename_i n hwhole
    exact nearest_of_holds hk (counts_whole? hwhole) (holds_exactUnits k)
  · exact nearest_shortest hk

end LoxLang
