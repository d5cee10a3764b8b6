import LoxLang.Proofs.ReadBack
import Mathlib.Data.Nat.Dist

/-! # The search finds the coarsest grid

The points of a decimal grid are the multiples of a power of ten.  A window is an interval
around a magnitude, so if it holds any point of a grid, it holds one of the two that stand
around the magnitude, and these are the nearest.  Looking at no others, the search therefore
finds the coarsest of all grids with a point in the window, and on it the point nearest to
the magnitude (`Coarsest`, `exists_coarsest_shortest`).  No grid is missed at the coarse end,
since the search begins with one whose points are all beyond the window.

A whole number up to `2 ^ 53` lies on the grid of the whole numbers, and what its window holds
on a coarser grid can only be that number again.  So it is its own shortest decimal
(`shortest_of_whole?`).
-/
namespace LoxLang.Binary64

variable {w : Window} {n j k : Nat}

/-! ### The points of one grid -/

/-- A window is an interval. -/
theorem Window.holds_of_between {a b c : Nat} (ha : w.holds a = true) (hb : w.holds b = true)
    (hac : a ≤ c) (hcb : c ≤ b) : w.holds c = true := by
  rw [Window.holds_iff] at ha hb ⊢
  refine ⟨by omega, by omega, ?_⟩
  intro hopen
  have hlow := ha.2.2 hopen
  have hhigh := hb.2.2 hopen
  omega

/-- A point of a grid is at most the one below `n` or at least the one above it. -/
theorem grid_cases (n j m : Nat) :
    m * 10 ^ j ≤ n / 10 ^ j * 10 ^ j ∨ n / 10 ^ j * 10 ^ j + 10 ^ j ≤ m * 10 ^ j := by
  rcases Nat.lt_or_ge (n / 10 ^ j) m with hlt | hge
  · right
    rw [← Nat.succ_mul]
    exact Nat.mul_le_mul_right _ hlt
  · exact .inl (Nat.mul_le_mul_right _ hge)

theorem grid_below_le (n j : Nat) : n / 10 ^ j * 10 ^ j ≤ n := Nat.div_mul_le_self n _

theorem lt_grid_above (n j : Nat) : n < n / 10 ^ j * 10 ^ j + 10 ^ j :=
  Nat.lt_div_mul_add (Nat.pow_pos (by decide))

/-- **What is found on a grid**: nothing if the window holds neither neighbour of `n`, and
else one that it holds, the other being further away if it holds that too. -/
theorem onGrid?_cases (w : Window) (n j : Nat) :
    let below := n / 10 ^ j * 10 ^ j
    let above := below + 10 ^ j
    (onGrid? w n j = none ∧ w.holds below = false ∧ w.holds above = false) ∨
      ∃ m, onGrid? w n j = some m ∧
        ((m * 10 ^ j = below ∧ w.holds below = true ∧
            (w.holds above = true → n - below < above - n)) ∨
          (m * 10 ^ j = above ∧ w.holds above = true ∧
            (w.holds below = true → above - n ≤ n - below))) := by
  intro below above
  have habove : (n / 10 ^ j + 1) * 10 ^ j = above := Nat.succ_mul _ _
  unfold onGrid?
  simp only [Nat.pow_eq]
  cases hb : w.holds below <;> cases ha : w.holds above
  · exact .inl ⟨rfl, rfl, rfl⟩
  · exact .inr ⟨_, rfl, .inr ⟨habove, rfl, nofun⟩⟩
  · exact .inr ⟨_, rfl, .inl ⟨rfl, rfl, nofun⟩⟩
  · refine .inr ⟨_, rfl, ?_⟩
    by_cases hless : n - below < above - n
    · exact .inl ⟨by rw [if_pos hless], rfl, fun _ => hless⟩
    · exact .inr ⟨by rw [if_neg hless, habove], rfl, fun _ => Nat.le_of_not_lt hless⟩

/-- **If the window holds a point of a grid, the search finds one there.** -/
theorem holds_grid_of_onGrid?_eq_none (hn : w.holds n = true) (h : onGrid? w n j = none)
    (m : Nat) : w.holds (m * 10 ^ j) = false := by
  obtain ⟨-, hbelow, habove⟩ | ⟨m', hsome, -⟩ := onGrid?_cases w n j
  · by_contra hm
    rw [Bool.not_eq_false] at hm
    rcases grid_cases n j m with hle | hge
    · have := Window.holds_of_between hm hn hle (grid_below_le n j)
      rw [hbelow] at this
      cases this
    · have := Window.holds_of_between hn hm (Nat.le_of_lt (lt_grid_above n j)) hge
      rw [habove] at this
      cases this
  · rw [h] at hsome
    cases hsome

/-- **The point that is found is the nearest of its grid.** -/
theorem dist_onGrid?_le {m m' : Nat} (hn : w.holds n = true) (h : onGrid? w n j = some m)
    (hm' : w.holds (m' * 10 ^ j) = true) :
    Nat.dist n (m * 10 ^ j) ≤ Nat.dist n (m' * 10 ^ j) := by
  have hbelow := grid_below_le n j
  have habove := lt_grid_above n j
  have hside := grid_cases n j m'
  -- beyond a neighbour that the window does not hold it holds nothing
  have hlower : m' * 10 ^ j ≤ n / 10 ^ j * 10 ^ j → w.holds (n / 10 ^ j * 10 ^ j) = true :=
    fun hle => Window.holds_of_between hm' hn hle hbelow
  have hupper : n / 10 ^ j * 10 ^ j + 10 ^ j ≤ m' * 10 ^ j →
      w.holds (n / 10 ^ j * 10 ^ j + 10 ^ j) = true :=
    fun hge => Window.holds_of_between hn hm' (Nat.le_of_lt habove) hge
  obtain ⟨hnone, -⟩ | ⟨m₀, hsome, hfound⟩ := onGrid?_cases w n j
  · rw [h] at hnone
    cases hnone
  · obtain rfl : m = m₀ := Option.some_inj.mp (h.symm.trans hsome)
    unfold Nat.dist
    rcases hfound with ⟨hm, -, hnearer⟩ | ⟨hm, -, hnearer⟩
    · rw [hm]
      rcases hside with hle | hge
      · omega
      · have := hnearer (hupper hge)
        omega
    · rw [hm]
      rcases hside with hle | hge
      · have := hnearer (hlower hle)
        omega
      · omega

/-! ### The coarsest of all grids -/

/-- `m * 10 ^ j` is the point nearest to `n` in the window `w` on the coarsest grid that has
one. -/
structure Coarsest (w : Window) (n m j : Nat) : Prop where
  holds : w.holds (m * 10 ^ j) = true
  coarsest : ∀ i, j < i → ∀ m', w.holds (m' * 10 ^ i) = false
  nearest : ∀ m', w.holds (m' * 10 ^ j) = true →
    Nat.dist n (m * 10 ^ j) ≤ Nat.dist n (m' * 10 ^ j)

/-- If the window holds no point of a grid from `bound` on, the search from there finds the
coarsest that it does. -/
theorem exists_coarsest_search (hn : w.holds n = true) (bound : Nat)
    (hbound : ∀ i, bound < i → ∀ m, w.holds (m * 10 ^ i) = false) :
    ∃ m j, search w n bound = ofGrid m j ∧ Coarsest w n m j := by
  induction bound with
  | zero =>
    refine ⟨n, 0, rfl, ⟨by simpa using hn, hbound, ?_⟩⟩
    intro m' _
    simp [Nat.dist]
  | succ bound ih =>
    rw [search]
    cases hgrid : onGrid? w n (bound + 1) with
    | some m =>
      exact ⟨m, bound + 1, rfl, holds_of_onGrid? hgrid, hbound, fun _ => dist_onGrid?_le hn hgrid⟩
    | none =>
      apply ih
      intro i hi m
      rcases Nat.eq_or_lt_of_le hi with rfl | hlt
      · exact holds_grid_of_onGrid?_eq_none hn hgrid m
      · exact hbound i hlt m

theorem lt_pow_digitBound (n : Nat) : n < 10 ^ digitBound n := by
  have hbits : n < 2 ^ (n.log2 + 1) := Nat.lt_log2_self
  unfold digitBound
  generalize n.log2 + 1 = bits at hbits ⊢
  refine Nat.lt_of_lt_of_le hbits ?_
  -- compare the 93rd powers
  rw [← Nat.pow_le_pow_iff_left (n := 93) (by decide)]
  calc (2 ^ bits) ^ 93 = (2 ^ 93) ^ bits := by rw [← Nat.pow_mul, ← Nat.pow_mul, Nat.mul_comm]
    _ ≤ (10 ^ 28) ^ bits := Nat.pow_le_pow_left (by decide) bits
    _ = 10 ^ (28 * bits) := by rw [← Nat.pow_mul]
    _ ≤ 10 ^ ((bits * 28 / 93 + 1) * 93) := Nat.pow_le_pow_right (by decide) (by omega)
    _ = (10 ^ (bits * 28 / 93 + 1)) ^ 93 := by rw [← Nat.pow_mul]

theorem exactUnits_succ (k : Nat) :
    exactUnits (k + 1) = exactUnits k + 2 ^ doublings k * Nat.pow 5 1074 := by
  unfold exactUnits
  rw [scaled_succ, Nat.add_mul]

theorem exactUnits_le_pred (k : Nat) :
    exactUnits k ≤ exactUnits (k - 1) + 2 ^ doublings k * Nat.pow 5 1074 := by
  unfold exactUnits
  rw [← Nat.add_mul]
  exact Nat.mul_le_mul_right _ (scaled_le_pred k)

theorem exactUnits_pos (hk : 0 < k) : 0 < exactUnits k := by
  obtain ⟨j, rfl⟩ := Nat.exists_eq_succ_of_ne_zero (Nat.pos_iff_ne_zero.mp hk)
  exact Nat.zero_lt_of_lt (exactUnits_lt_succ j)

/-- Above zero, the step to the next magnitude is at most the magnitude itself. -/
theorem exactUnits_succ_le (hk : 0 < k) : exactUnits (k + 1) ≤ 2 * exactUnits k := by
  have hsteps : 0 < steps k := by
    unfold steps doublings
    omega
  have hstep : 2 ^ doublings k ≤ scaled k := by
    rw [scaled_eq]
    exact Nat.le_mul_of_pos_left _ hsteps
  have hunits := Nat.mul_le_mul_right (Nat.pow 5 1074) hstep
  rw [exactUnits_succ]
  unfold exactUnits at *
  omega

/-- The coarse grids have no point in a window but those beyond it. -/
theorem holds_grid_of_digitBound_lt (hk : 0 < k) {i : Nat} (hi : digitBound (exactUnits k) < i)
    (m : Nat) : (window k).holds (m * 10 ^ i) = false := by
  by_contra hm
  rw [Bool.not_eq_false, holds_window_iff] at hm
  have hpos := exactUnits_pos hk
  have hdouble := exactUnits_succ_le hk
  have hbound : 10 * exactUnits k < 10 ^ i := by
    have hpow : 10 ^ (digitBound (exactUnits k) + 1) ≤ 10 ^ i :=
      Nat.pow_le_pow_right (by decide) hi
    have hlt := lt_pow_digitBound (exactUnits k)
    rw [Nat.pow_succ] at hpow
    omega
  rcases Nat.eq_zero_or_pos m with rfl | hm'
  · omega
  · have := Nat.le_mul_of_pos_left (10 ^ i) hm'
    omega

/-- **The search finds the coarsest grid.** -/
theorem exists_coarsest_shortest (hk : 0 < k) :
    ∃ m j, shortest k = ofGrid m j ∧ Coarsest (window k) (exactUnits k) m j := by
  rw [shortest, if_neg (Nat.pos_iff_ne_zero.mp hk)]
  exact exists_coarsest_search (holds_exactUnits k) _
    fun i hi m => holds_grid_of_digitBound_lt hk hi m

/-! ### Digits of the points in a window -/

namespace Coarsest
variable {m i m' : Nat}

/-- Ten does not divide the multiplier, since the point would lie on a coarser grid. -/
theorem not_dvd (h : Coarsest w n m j) : ¬ 10 ∣ m := by
  rintro ⟨q, rfl⟩
  have hcoarser := h.coarsest (j + 1) (Nat.lt_succ_self j) q
  have hsame : 10 * q * 10 ^ j = q * 10 ^ (j + 1) := by ring
  rw [← hsame, h.holds] at hcoarser
  cases hcoarser

theorem le_of_holds (h : Coarsest w n m j) (hm' : w.holds (m' * 10 ^ i) = true) : i ≤ j := by
  by_contra hlt
  rw [h.coarsest i (Nat.lt_of_not_le hlt) m'] at hm'
  cases hm'

/-- If the magnitude itself lies on the coarsest grid, it is the point that is found. -/
theorem eq_of_dvd (h : Coarsest w n m j) (hn : w.holds n = true)
    (hdvd : 10 ^ j ∣ n) : m * 10 ^ j = n := by
  obtain ⟨q, rfl⟩ := hdvd
  rw [Nat.mul_comm (10 ^ j) q] at h hn ⊢
  have hle := h.nearest q hn
  rw [Nat.dist_self, Nat.le_zero] at hle
  exact (Nat.eq_of_dist_eq_zero hle).symm

/-- A point with a multiplier of `a + 1` digits or more on the coarsest grid, `a` positive,
lies above a power of ten.  So no point of the window lies below that power. -/
theorem lt_of_pow_le (h : Coarsest w n m j) {a b : Nat} (ha : 0 < a) (hm : 10 ^ a ≤ m)
    (hlt : m' < 10 ^ b) (hm' : w.holds (m' * 10 ^ i) = true) : a + j < b + i := by
  by_contra hle
  have hlow : m' * 10 ^ i ≤ 1 * 10 ^ (a + j) := by
    calc m' * 10 ^ i ≤ 10 ^ b * 10 ^ i := Nat.mul_le_mul_right _ (Nat.le_of_lt hlt)
      _ = 10 ^ (b + i) := (Nat.pow_add 10 b i).symm
      _ ≤ 10 ^ (a + j) := Nat.pow_le_pow_right (by decide) (Nat.le_of_not_lt hle)
      _ = 1 * 10 ^ (a + j) := (Nat.one_mul _).symm
  have hhigh : 1 * 10 ^ (a + j) ≤ m * 10 ^ j := by
    rw [Nat.one_mul, Nat.pow_add]
    exact Nat.mul_le_mul_right _ hm
  have hpower := Window.holds_of_between hm' h.holds hlow hhigh
  rw [h.coarsest (a + j) (by omega) 1] at hpower
  cases hpower

end Coarsest

/-! ### Whole numbers -/

/-- A magnitude below `2 ^ 53` times a power of two has steps of at most that power. -/
theorem doublings_le {e : Nat} (h : scaled k < 2 ^ 53 * 2 ^ e) : doublings k ≤ e := by
  by_contra hlt
  have hsteps : 2 ^ 52 ≤ steps k := le_steps (by omega)
  have hge : 2 ^ 53 * 2 ^ e ≤ scaled k := by
    calc 2 ^ 53 * 2 ^ e = 2 ^ 52 * 2 ^ (e + 1) := by rw [Nat.pow_succ]; omega
      _ ≤ steps k * 2 ^ doublings k :=
          Nat.mul_le_mul hsteps (Nat.pow_le_pow_right (by decide) (by omega))
      _ = scaled k := (scaled_eq k).symm
  omega

/-- What the window holds is at most half a step away. -/
theorem dist_le_of_holds {c : Nat} (hc : (window k).holds c = true) :
    2 * Nat.dist (exactUnits k) c ≤ 2 ^ doublings k * Nat.pow 5 1074 := by
  obtain ⟨hlow, hhigh, -⟩ := holds_window_iff.mp hc
  have hpred := exactUnits_le_pred k
  rw [exactUnits_succ] at hhigh
  unfold Nat.dist
  omega

theorem dist_whole?_le {c : Nat} (hk : whole? k = some n)
    (hc : (window k).holds (c * Nat.pow 10 1074) = true) :
    2 * (Nat.dist n c * Nat.pow 2 1074) ≤ 2 ^ doublings k := by
  have hdist := dist_le_of_holds hc
  have hexact := exactUnits_of_whole? hk
  generalize 1074 = e at *
  have hpos : 0 < Nat.pow 5 e := Nat.pow_pos (by decide)
  rw [hexact, Nat.dist_mul_right, pow_ten_eq, ← Nat.mul_assoc, ← Nat.mul_assoc] at hdist
  rw [← Nat.mul_assoc]
  exact Nat.le_of_mul_le_mul_right hdist hpos

/-- The window of a whole number below `2 ^ 53` holds no other, and that of `2 ^ 53` only its
neighbours. -/
theorem eq_or_dist_whole?_le_one {c : Nat} (hk : whole? k = some n) (hn : n ≤ 2 ^ 53)
    (hc : (window k).holds (c * Nat.pow 10 1074) = true) :
    n = c ∨ n = 2 ^ 53 ∧ Nat.dist n c ≤ 1 := by
  have hscaled := whole?_eq_some_iff.mp hk
  have hdist := dist_whole?_le hk hc
  generalize 1074 = e at *
  have hpos : 0 < 2 ^ e := Nat.two_pow_pos e
  rw [Nat.pow_eq] at hscaled hdist
  rcases Nat.lt_or_ge n (2 ^ 53) with hlt | hge
  · left
    have hbelow : scaled k < 2 ^ 53 * 2 ^ e := by
      rw [hscaled]
      exact Nat.mul_lt_mul_of_pos_right hlt hpos
    have hstep := Nat.pow_le_pow_right (n := 2) (by decide) (doublings_le hbelow)
    apply Nat.eq_of_dist_eq_zero
    by_contra hne
    have := Nat.le_mul_of_pos_left (2 ^ e) (Nat.pos_of_ne_zero hne)
    omega
  · right
    refine ⟨by omega, ?_⟩
    have hbelow : scaled k < 2 ^ 53 * 2 ^ (e + 1) := by
      rw [hscaled, Nat.pow_succ]
      have := Nat.mul_le_mul_right (2 ^ e) hn
      omega
    have hstep := Nat.pow_le_pow_right (n := 2) (by decide) (doublings_le hbelow)
    rw [Nat.pow_succ] at hstep
    by_contra hgt
    have := Nat.mul_le_mul_right (2 ^ e) (Nat.lt_of_not_le hgt)
    omega

/-- The point found for a whole number up to `2 ^ 53` is that number.  Only at `2 ^ 53` does
the window hold another, and ten does not divide either of its neighbours. -/
theorem Coarsest.eq_whole {m t : Nat} (h : Coarsest (window k) (exactUnits k) m (1074 + t))
    (hk : whole? k = some n) (hn : n ≤ 2 ^ 53) : m * 10 ^ t = n := by
  have hexact := exactUnits_of_whole? hk
  have heq := h.eq_of_dvd (holds_exactUnits k)
  have hholds := h.holds
  have hfar (c : Nat) := eq_or_dist_whole?_le_one (c := c) hk hn
  generalize 1074 = e at *
  have hpos : 0 < 10 ^ e := Nat.pow_pos (by decide)
  rw [Nat.pow_eq] at hexact hfar
  rw [Nat.add_comm, Nat.pow_add, ← Nat.mul_assoc] at hholds heq
  rcases hfar _ hholds with hsame | ⟨hlarge, hle⟩
  · exact hsame.symm
  · cases t with
    | zero =>
      rw [hexact, Nat.pow_zero, Nat.one_mul] at heq
      exact Nat.eq_of_mul_eq_mul_right hpos (heq ⟨n, Nat.mul_comm n _⟩)
    | succ t =>
      rw [Nat.pow_succ, ← Nat.mul_assoc] at hle ⊢
      unfold Nat.dist at hle
      omega

/-- **A whole number up to `2 ^ 53` is its own shortest decimal.** -/
theorem shortest_of_whole? (hk : whole? k = some n) (hn : n ≤ 2 ^ 53) :
    shortest k = ⟨n, 0⟩ := by
  have hexact := exactUnits_of_whole? hk
  rcases Nat.eq_zero_or_pos k with rfl | hpos
  · rw [exactUnits, scaled_zero] at hexact
    generalize 1074 = e at hexact
    rw [Nat.zero_mul] at hexact
    have hzero := (Nat.mul_eq_zero.mp hexact.symm).resolve_right (Nat.pow_pos (by decide)).ne'
    rw [hzero]
    rfl
  · obtain ⟨m, j, hshortest, hcoarsest⟩ := exists_coarsest_shortest hpos
    have hle : 1074 ≤ j := by
      have hself := holds_exactUnits k
      generalize 1074 = e at *
      rw [hexact] at hself
      exact hcoarsest.le_of_holds hself
    obtain ⟨t, rfl⟩ := Nat.exists_eq_add_of_le hle
    have hm := hcoarsest.eq_whole hk hn
    rw [hshortest, ofGrid]
    generalize 1074 = e
    rw [Nat.add_sub_cancel_left, Nat.sub_eq_zero_of_le (Nat.le_add_right _ _), Nat.pow_eq, hm]

end LoxLang.Binary64
