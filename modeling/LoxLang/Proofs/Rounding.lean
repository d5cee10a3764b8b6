import LoxLang.Binary64.Shortest
import Mathlib.Tactic.MkIffOfInductiveProp
import Mathlib.Tactic.Ring

/-! # Which fractions round to a magnitude

The magnitudes are counted in steps: within a block of `2 ^ 52` numbers one step leads
from each to the next, and from block to block the step doubles.  Below a number whose
block has just begun the step is therefore half of what it is above.

A fraction is near a magnitude if it lies no further than half a step from it on either
side, and not at half a step if the magnitude has an odd number (`Near`).  Every fraction
is near one (`exists_near`), and the main statement, `nearest_of_near`, is that rounding
finds it.  One case needs care: a fraction just below the start of a block is measured in
the smaller steps of the block before, and rounds up into the block.
-/
namespace LoxLang.Binary64

/-! ### Steps -/

/-- How often the step has doubled at the number `k`. -/
def doublings (k : Nat) : Nat := k / 2 ^ 52 - 1

/-- How many steps of the size at `k` make up the magnitude numbered `k`. -/
def steps (k : Nat) : Nat := k - doublings k * 2 ^ 52

theorem doublings_add_steps (k : Nat) : doublings k * 2 ^ 52 + steps k = k := by
  unfold steps doublings
  omega

theorem steps_lt (k : Nat) : steps k < 2 ^ 53 := by
  unfold steps doublings
  omega

/-- Above the first two blocks every magnitude has the leading bit set. -/
theorem le_steps {k : Nat} (h : 0 < doublings k) : 2 ^ 52 ≤ steps k := by
  unfold steps
  unfold doublings at h ⊢
  omega

theorem scaled_eq (k : Nat) : scaled k = steps k * 2 ^ doublings k := by
  unfold scaled
  simp only [Nat.pow_eq]
  split
  · rename_i hk
    have hzero : doublings k = 0 := by
      unfold doublings
      omega
    rw [steps, hzero]
    simp
  · rename_i hk
    have hsteps : steps k = 2 ^ 52 + k % 2 ^ 52 := by
      unfold steps doublings
      omega
    rw [hsteps, doublings]

theorem scaled_zero : scaled 0 = 0 := by decide

/-- From a number to the next the step stays, or a block ends and it doubles. -/
theorem doublings_succ (k : Nat) :
    doublings (k + 1) = doublings k ∧ steps (k + 1) = steps k + 1 ∨
      doublings (k + 1) = doublings k + 1 ∧ steps k = 2 ^ 53 - 1 ∧ steps (k + 1) = 2 ^ 52 := by
  unfold steps doublings
  omega

/-- **The next magnitude is one step further.** -/
theorem scaled_succ (k : Nat) : scaled (k + 1) = scaled k + 2 ^ doublings k := by
  rw [scaled_eq, scaled_eq]
  rcases doublings_succ k with ⟨hd, hs⟩ | ⟨hd, hk, hs⟩
  · rw [hd, hs, Nat.succ_mul]
  · rw [hd, hs, hk, Nat.pow_succ]
    omega

theorem scaled_lt_succ (k : Nat) : scaled k < scaled (k + 1) := by
  rw [scaled_succ]
  exact Nat.lt_add_of_pos_right (Nat.two_pow_pos _)

theorem doublings_le_succ (k : Nat) : doublings k ≤ doublings (k + 1) := by
  rcases doublings_succ k with ⟨hd, -⟩ | ⟨hd, -⟩ <;> omega

/-- The magnitude below is at most one step of the size at `k` away. -/
theorem scaled_le_pred (k : Nat) : scaled k ≤ scaled (k - 1) + 2 ^ doublings k := by
  cases k with
  | zero => exact Nat.le_add_right _ _
  | succ k =>
    rw [Nat.add_sub_cancel, scaled_succ]
    exact Nat.add_le_add_left (Nat.pow_le_pow_right (by decide) (doublings_le_succ k)) _

/-! ### Rounding a quotient -/

/-- A quotient rounds to the whole number that is at most half away, and at a tie to
the even one. -/
theorem roundDiv_eq {n d q : Nat} (hd : 0 < d) (hlow : 2 * (q * d) ≤ 2 * n + d)
    (hhigh : 2 * n ≤ 2 * (q * d) + d)
    (hodd : q % 2 = 1 → 2 * (q * d) < 2 * n + d ∧ 2 * n < 2 * (q * d) + d) :
    roundDiv n d = q := by
  have hdiv : n / d * d + n % d = n := by
    rw [Nat.mul_comm]
    exact Nat.div_add_mod n d
  have hmod : n % d < d := Nat.mod_lt n hd
  have hle : n / d ≤ q := by
    by_contra hlt
    have hmul : (q + 1) * d ≤ n / d * d := Nat.mul_le_mul_right d (by omega)
    rw [Nat.succ_mul] at hmul
    omega
  have hge : q ≤ n / d + 1 := by
    by_contra hlt
    have hmul : (n / d + 2) * d ≤ q * d := Nat.mul_le_mul_right d (by omega)
    rw [Nat.add_mul] at hmul
    omega
  unfold roundDiv
  dsimp only
  rcases Nat.lt_or_ge (n / d) q with hlt | hge'
  · -- the remainder is at least a half, and at a tie `q` is even
    obtain rfl : q = n / d + 1 := by omega
    rw [Nat.succ_mul (n / d)] at hlow hhigh hodd
    rw [if_neg]
    rintro (hless | ⟨htie, heven⟩)
    · omega
    · have := hodd (by omega)
      omega
  · obtain rfl : q = n / d := by omega
    rw [if_pos]
    rcases Nat.lt_or_ge (2 * (n % d)) d with hless | hmore
    · exact .inl hless
    · have htie : 2 * (n % d) = d := by omega
      refine .inr ⟨htie, ?_⟩
      by_contra hne
      have := hodd (by omega)
      omega

/-! ### Near a magnitude -/

/-- The fraction `n / d`, in units of `2 ^ (-1074)`, lies between the midpoints from the
magnitude numbered `k` to its neighbours.  A midpoint belongs to its even neighbour. -/
@[mk_iff]
structure Near (n d k : Nat) : Prop where
  low : (scaled (k - 1) + scaled k) * d ≤ 2 * n
  high : 2 * n ≤ (scaled k + scaled (k + 1)) * d
  odd : k % 2 = 1 →
    (scaled (k - 1) + scaled k) * d < 2 * n ∧ 2 * n < (scaled k + scaled (k + 1)) * d

theorem le_scaled (k : Nat) : k ≤ scaled k := by
  induction k with
  | zero => exact Nat.zero_le _
  | succ k ih => exact Nat.lt_of_le_of_lt ih (scaled_lt_succ k)

/-- Every fraction lies between a magnitude and the next. -/
theorem exists_between (n : Nat) {d : Nat} (hd : 0 < d) :
    ∃ k, scaled k * d ≤ n ∧ n < scaled (k + 1) * d := by
  by_contra hnone
  have hbelow (k : Nat) : scaled k * d ≤ n := by
    induction k with
    | zero => simp [scaled_zero]
    | succ k ih => exact Nat.le_of_not_lt fun hlt => hnone ⟨k, ih, hlt⟩
  have hbeyond : (n + 1) * 1 ≤ scaled (n + 1) * d := Nat.mul_le_mul (le_scaled (n + 1)) hd
  have := hbelow (n + 1)
  omega

/-- **Every fraction is near a magnitude**: of the two that it lies between, the one on its
side of the midpoint, or the even one. -/
theorem exists_near (n : Nat) {d : Nat} (hd : 0 < d) : ∃ k, Near n d k := by
  obtain ⟨k, hle, hlt⟩ := exists_between n hd
  have hpred : scaled (k - 1) * d ≤ scaled k * d ∧
      (k % 2 = 1 → scaled (k - 1) * d < scaled k * d) := by
    cases k with
    | zero => exact ⟨Nat.le_refl _, nofun⟩
    | succ k =>
      have hstep := Nat.mul_lt_mul_of_pos_right (scaled_lt_succ k) hd
      exact ⟨Nat.le_of_lt hstep, fun _ => hstep⟩
  have hnext : scaled (k + 1) * d < scaled (k + 1 + 1) * d :=
    Nat.mul_lt_mul_of_pos_right (scaled_lt_succ (k + 1)) hd
  by_cases hside : 2 * n < scaled k * d + scaled (k + 1) * d ∨
      2 * n = scaled k * d + scaled (k + 1) * d ∧ k % 2 = 0
  · refine ⟨k, ?_⟩
    simp only [near_iff, Nat.add_mul]
    omega
  · refine ⟨k + 1, ?_⟩
    simp only [near_iff, Nat.add_mul, Nat.add_sub_cancel]
    omega

/-- How many doublings of the step the size of the fraction `n / d` calls for. -/
def shiftAt (n d : Nat) : Nat := (n / d).log2 - 52

theorem shiftAt_le {n d s : Nat} (h : n / d < 2 ^ (53 + s)) : shiftAt n d ≤ s := by
  unfold shiftAt
  rcases Nat.eq_zero_or_pos (n / d) with hzero | hpos
  · rw [hzero, Nat.log2_zero]
    omega
  · have := (Nat.log2_lt (Nat.pos_iff_ne_zero.mp hpos)).mpr h
    omega

theorem le_shiftAt {n d s : Nat} (h : 2 ^ (52 + s) ≤ n / d) : s ≤ shiftAt n d := by
  have hpos : n / d ≠ 0 := by
    have := Nat.two_pow_pos (52 + s)
    omega
  have := (Nat.le_log2 hpos).mpr h
  unfold shiftAt
  omega

theorem lt_of_shiftAt_lt {n d s : Nat} (hd : 0 < d) (h : shiftAt n d < s) :
    n < 2 ^ (52 + s) * d := by
  by_contra hnot
  have := le_shiftAt ((Nat.le_div_iff_mul_le hd).mpr (Nat.le_of_not_lt hnot))
  omega

namespace Near
variable {n d k : Nat}

/-- In the steps of its own block, a fraction rounds to the number of steps of the
magnitude it is near. -/
theorem roundDiv_eq_steps (h : Near n d k) (hd : 0 < d) :
    roundDiv n (d * 2 ^ doublings k) = steps k := by
  have hscaled : scaled k * d = steps k * (d * 2 ^ doublings k) := by
    rw [scaled_eq]
    ring
  have hpred : scaled k * d ≤ scaled (k - 1) * d + d * 2 ^ doublings k := by
    calc scaled k * d ≤ (scaled (k - 1) + 2 ^ doublings k) * d :=
          Nat.mul_le_mul_right d (scaled_le_pred k)
      _ = scaled (k - 1) * d + d * 2 ^ doublings k := by ring
  have hsucc : scaled (k + 1) * d = scaled k * d + d * 2 ^ doublings k := by
    rw [scaled_succ]
    ring
  have hparity : k % 2 = steps k % 2 := by
    have := doublings_add_steps k
    omega
  obtain ⟨hlow, hhigh, hodd⟩ := h
  rw [Nat.add_mul] at hlow hhigh hodd
  rw [Nat.add_mul] at hodd
  refine roundDiv_eq (Nat.mul_pos hd (Nat.two_pow_pos _)) ?_ ?_ ?_
  · omega
  · omega
  · intro hsteps
    have := hodd (by omega)
    omega

/-- A fraction that is near a magnitude but calls for fewer doublings is near the start of
a block: inside a block, the magnitude below is above all that call for fewer. -/
theorem starts_block {j : Nat} (h : Near n d (j + 1)) (hd : 0 < d)
    (hlt : shiftAt n d < doublings (j + 1)) :
    doublings (j + 1) = doublings j + 1 ∧ steps j = 2 ^ 53 - 1 ∧ steps (j + 1) = 2 ^ 52 := by
  refine (doublings_succ j).resolve_left ?_
  rintro ⟨hsame, -⟩
  have hbelow := lt_of_shiftAt_lt hd hlt
  have hblock : 2 ^ (52 + doublings (j + 1)) ≤ scaled j := by
    rw [scaled_eq, ← hsame, Nat.pow_add]
    exact Nat.mul_le_mul_right _ (le_steps (by omega))
  have hlower := Nat.mul_le_mul_right d hblock
  have hupper := Nat.mul_le_mul_right d (Nat.le_of_lt (scaled_lt_succ j))
  have hlow := h.low
  rw [Nat.add_sub_cancel, Nat.add_mul] at hlow
  omega

/-- **A fraction measured in smaller steps.**  If it is near a magnitude but calls for
fewer doublings, that magnitude begins a block, and in the steps of the block before the
fraction rounds to as many as that whole block has. -/
theorem shiftAt_lt (h : Near n d k) (hd : 0 < d) (hlt : shiftAt n d < doublings k) :
    steps k = 2 ^ 52 ∧ shiftAt n d + 1 = doublings k ∧
      roundDiv n (d * 2 ^ shiftAt n d) = 2 ^ 53 := by
  obtain ⟨j, rfl⟩ : ∃ j, k = j + 1 := by
    cases k with
    | zero => exact absurd hlt (Nat.not_lt_zero _)
    | succ j => exact ⟨j, rfl⟩
  obtain ⟨hnext, hlast, hfirst⟩ := h.starts_block hd hlt
  -- both neighbours and the fraction, in the steps of the block before
  have hlow := h.low
  rw [Nat.add_sub_cancel, Nat.add_mul] at hlow
  have hbefore : scaled j * d = (2 ^ 53 - 1) * (d * 2 ^ doublings j) := by
    rw [scaled_eq, hlast]
    ring
  have hstart : scaled (j + 1) * d = 2 ^ 53 * (d * 2 ^ doublings j) := by
    rw [scaled_eq, hfirst, hnext]
    ring
  have hbelow : n < 2 ^ 53 * (d * 2 ^ doublings j) := by
    have hblock := lt_of_shiftAt_lt hd hlt
    rw [hnext] at hblock
    calc n < 2 ^ (52 + (doublings j + 1)) * d := hblock
      _ = 2 ^ 53 * (d * 2 ^ doublings j) := by ring
  have hshift : shiftAt n d = doublings j := by
    refine Nat.le_antisymm (by omega) (le_shiftAt ((Nat.le_div_iff_mul_le hd).mpr ?_))
    calc 2 ^ (52 + doublings j) * d = 2 ^ 52 * (d * 2 ^ doublings j) := by ring
      _ ≤ n := by omega
  refine ⟨hfirst, by omega, ?_⟩
  rw [hshift]
  refine roundDiv_eq (Nat.mul_pos hd (Nat.two_pow_pos _)) (by omega) (by omega) ?_
  intro hodd
  omega

/-- A fraction that is near a magnitude calls for no more doublings than that has. -/
theorem shiftAt_le_doublings (h : Near n d k) (hd : 0 < d) :
    shiftAt n d ≤ doublings k := by
  have hbound : scaled k + scaled (k + 1) < 2 * 2 ^ (53 + doublings k) := by
    have hsteps := steps_lt k
    rw [scaled_succ, scaled_eq]
    calc steps k * 2 ^ doublings k + (steps k * 2 ^ doublings k + 2 ^ doublings k)
        = (2 * steps k + 1) * 2 ^ doublings k := by ring
      _ < 2 ^ 54 * 2 ^ doublings k :=
          Nat.mul_lt_mul_of_pos_right (by omega) (Nat.two_pow_pos _)
      _ = 2 * 2 ^ (53 + doublings k) := by ring
  apply shiftAt_le
  rw [Nat.div_lt_iff_lt_mul hd]
  have hhigh : 2 * n < 2 * 2 ^ (53 + doublings k) * d :=
    Nat.lt_of_le_of_lt h.high (Nat.mul_lt_mul_of_pos_right hbound hd)
  rw [Nat.mul_assoc] at hhigh
  omega

/-- **Rounding finds the magnitude that a fraction is near.** -/
theorem shiftAt_add_roundDiv (h : Near n d k) (hd : 0 < d) :
    shiftAt n d * 2 ^ 52 + roundDiv n (d * 2 ^ shiftAt n d) = k := by
  have hsplit := doublings_add_steps k
  rcases Nat.lt_or_ge (shiftAt n d) (doublings k) with hlt | hge
  · -- two blocks of the smaller steps are one of the greater
    obtain ⟨hsteps, hshift, hround⟩ := h.shiftAt_lt hd hlt
    rw [hsteps, ← hshift, Nat.succ_mul] at hsplit
    rw [hround, ← hsplit, Nat.add_assoc, ← Nat.two_mul, ← Nat.pow_succ']
  · have heq : shiftAt n d = doublings k := Nat.le_antisymm (h.shiftAt_le_doublings hd) hge
    rw [heq, h.roundDiv_eq_steps hd, hsplit]

end Near

/-- **Reading finds the magnitude that a decimal is near**, unless that is beyond the finite
ones. -/
theorem nearest_of_near {d : Decimal} {k : Nat}
    (h : Near (d.units * Nat.pow 2 1074) (10 ^ d.places) k) : nearest d = min k infinity := by
  have hround := h.shiftAt_add_roundDiv (Nat.pow_pos (by decide))
  unfold nearest
  unfold shiftAt at hround
  exact congrArg (min · infinity) hround

end LoxLang.Binary64
