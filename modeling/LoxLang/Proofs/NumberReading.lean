import Mathlib
import LoxLang.Number
import LoxLang.Proofs.Rounding

/-! # Numbers are read as the nearest float

Decimals and magnitudes are rational numbers here, and rounding is what it is said to be: a
number rounds to the magnitude nearest to it, and of two to the even one (`RoundsTo`).  That is
the same as lying between the midpoints to the neighbours (`roundsTo_iff`), and so the same,
for a decimal, as being near in the sense in which reading finds the magnitude
(`roundsTo_value_iff_near`).

What a text of digits denotes is said digit by digit (`Numeral`), apart from how it is read.
The float that is read is the nearest to it, or infinity beyond the finite range
(`Number.nearest_ofText`).
-/
namespace LoxLang

/-- The number that `d` writes. -/
def Decimal.value (d : Decimal) : ℚ := d.units / 10 ^ d.places

theorem Decimal.value_nonneg (d : Decimal) : 0 ≤ d.value := by
  unfold Decimal.value
  positivity

namespace Binary64

/-- The magnitude numbered `k`, as a number. -/
def value (k : Nat) : ℚ := scaled k / 2 ^ 1074

/-- No magnitude is nearer to `q` than the one numbered `k`, and if another is as near, then
`k` is even.  The magnitudes go on beyond `infinity`, since whether a number is too great is
decided after rounding. -/
structure RoundsTo (q : ℚ) (k : Nat) : Prop where
  nearest : ∀ j, |q - value k| ≤ |q - value j|
  even : ∀ j, j ≠ k → |q - value j| = |q - value k| → k % 2 = 0

variable {q : ℚ} {k : Nat} {d : Decimal}

theorem value_zero : value 0 = 0 := by
  rw [value, scaled_zero, Nat.cast_zero, zero_div]

theorem value_strictMono : StrictMono value := by
  apply strictMono_nat_of_lt_succ
  intro k
  unfold value
  exact div_lt_div_of_pos_right (Nat.cast_lt.mpr (scaled_lt_succ k)) (by positivity)

theorem value_nonneg (k : Nat) : 0 ≤ value k := by
  rw [← value_zero]
  exact value_strictMono.monotone (Nat.zero_le k)

/-! ### Midpoints -/

/-- Of two points the upper one is no further away from their midpoint on. -/
theorem abs_sub_upper_le_iff {a b : ℚ} (h : a < b) : |q - b| ≤ |q - a| ↔ a + b ≤ 2 * q := by
  have hfactor : (q - a) ^ 2 - (q - b) ^ 2 = (b - a) * (2 * q - (a + b)) := by ring
  rw [← sq_le_sq, ← sub_nonneg, hfactor, mul_nonneg_iff_of_pos_left (sub_pos.mpr h), sub_nonneg]

theorem abs_sub_lower_le_iff {a b : ℚ} (h : a < b) : |q - a| ≤ |q - b| ↔ 2 * q ≤ a + b := by
  have hfactor : (q - b) ^ 2 - (q - a) ^ 2 = (b - a) * (a + b - 2 * q) := by ring
  rw [← sq_le_sq, ← sub_nonneg, hfactor, mul_nonneg_iff_of_pos_left (sub_pos.mpr h), sub_nonneg]

/-- **A number rounds to a magnitude if it lies between the midpoints** to the neighbours. -/
theorem roundsTo_iff (hq : 0 ≤ q) :
    RoundsTo q k ↔
      value (k - 1) + value k ≤ 2 * q ∧ 2 * q ≤ value k + value (k + 1) ∧
        (k % 2 = 1 → value (k - 1) + value k < 2 * q ∧ 2 * q < value k + value (k + 1)) := by
  have habove : value k < value (k + 1) := value_strictMono (Nat.lt_succ_self k)
  constructor
  · intro h
    have hhigh := (abs_sub_lower_le_iff habove).mp (h.nearest (k + 1))
    rcases Nat.eq_zero_or_pos k with rfl | hpos
    · rw [Nat.zero_sub, value_zero] at *
      exact ⟨by linarith, hhigh, nofun⟩
    · have hbelow : value (k - 1) < value k := value_strictMono (by omega)
      have hlow := (abs_sub_upper_le_iff hbelow).mp (h.nearest (k - 1))
      refine ⟨hlow, hhigh, ?_⟩
      -- at a midpoint the neighbour is as near, and then `k` is even
      intro hodd
      refine ⟨lt_of_le_of_ne hlow ?_, lt_of_le_of_ne hhigh ?_⟩
      · intro htie
        have := h.even (k - 1) (by omega)
          (le_antisymm ((abs_sub_lower_le_iff hbelow).mpr htie.ge) (h.nearest _))
        omega
      · intro htie
        have := h.even (k + 1) (by omega)
          (le_antisymm ((abs_sub_upper_le_iff habove).mpr htie.ge) (h.nearest _))
        omega
  · rintro ⟨hlow, hhigh, hodd⟩
    -- the midpoint to any other magnitude lies no nearer than that to a neighbour
    refine ⟨?_, ?_⟩
    · intro j
      rcases Nat.lt_trichotomy j k with hlt | rfl | hgt
      · rw [abs_sub_upper_le_iff (value_strictMono hlt)]
        have := value_strictMono.monotone (show j ≤ k - 1 by omega)
        linarith
      · exact le_rfl
      · rw [abs_sub_lower_le_iff (value_strictMono hgt)]
        have := value_strictMono.monotone (show k + 1 ≤ j by omega)
        linarith
    · intro j hne htie
      by_contra hnot
      have hstrict := hodd (by omega)
      rcases Nat.lt_or_gt_of_ne hne with hlt | hgt
      · have hle := (abs_sub_lower_le_iff (value_strictMono hlt)).mp htie.le
        have := value_strictMono.monotone (show j ≤ k - 1 by omega)
        linarith
      · have hle := (abs_sub_upper_le_iff (value_strictMono hgt)).mp htie.le
        have := value_strictMono.monotone (show k + 1 ≤ j by omega)
        linarith

theorem le_iff_of_mul_eq {x y c : ℚ} {m n : Nat} (hc : 0 < c) (hx : x * c = m)
    (hy : y * c = n) : x ≤ y ↔ m ≤ n := by
  rw [← mul_le_mul_iff_left₀ hc, hx, hy, Nat.cast_le]

/-- A decimal rounds to what it is near. -/
theorem roundsTo_value_iff_near :
    RoundsTo d.value k ↔ Near (d.units * Nat.pow 2 1074) (10 ^ d.places) k := by
  rw [roundsTo_iff d.value_nonneg, near_iff]
  unfold value Decimal.value
  generalize 1074 = e
  have hc : (0 : ℚ) < 2 ^ e * 10 ^ d.places := by positivity
  have hmid (a b : Nat) : ((a / 2 ^ e + b / 2 ^ e : ℚ)) * (2 ^ e * 10 ^ d.places) =
      ((a + b) * 10 ^ d.places : Nat) := by
    push_cast
    field_simp
  have hdec : 2 * (d.units / 10 ^ d.places : ℚ) * (2 ^ e * 10 ^ d.places) =
      (2 * (d.units * Nat.pow 2 e) : Nat) := by
    rw [Nat.pow_eq]
    push_cast
    field_simp
  simp only [← not_le, le_iff_of_mul_eq hc (hmid _ _) hdec, le_iff_of_mul_eq hc hdec (hmid _ _)]

/-- **Every decimal rounds to a magnitude**, and reading finds it, unless it is beyond the
finite ones. -/
theorem exists_roundsTo (d : Decimal) :
    ∃ k, RoundsTo d.value k ∧ Binary64.nearest d = min k infinity := by
  obtain ⟨k, hnear⟩ := exists_near (d.units * Nat.pow 2 1074) (Nat.pow_pos (n := d.places)
    (show 0 < 10 by decide))
  exact ⟨k, roundsTo_value_iff_near.mpr hnear, nearest_of_near hnear⟩

end Binary64

/-! ### Texts of digits -/

/-- A text of digits, or of digits on both sides of a point, and the number that it writes. -/
inductive Numeral : List Char → ℚ → Prop
  | whole {w : List Char} (hw : ∀ c ∈ w, c.isDigit = true) :
    Numeral w (Nat.ofDigitChars 10 w 0)
  | point {w v : List Char} (hw : ∀ c ∈ w, c.isDigit = true) (hv : ∀ c ∈ v, c.isDigit = true) :
    Numeral (w ++ '.' :: v) (Nat.ofDigitChars 10 w 0 + Nat.ofDigitChars 10 v 0 / 10 ^ v.length)

/-- A text is read as the decimal that it writes. -/
theorem Numeral.value_ofText {w : List Char} {q : ℚ} (h : Numeral w q) :
    (Decimal.ofText w).value = q := by
  cases h with
  | whole hw =>
    obtain ⟨htake, hdrop⟩ := Decimal.takeWhile_isDigit_append w [] hw nofun
    rw [List.append_nil] at htake hdrop
    simp [Decimal.ofText, Decimal.value, htake, hdrop]
  | @point w v hw hv =>
    obtain ⟨htake, hdrop⟩ := Decimal.takeWhile_isDigit_append w ('.' :: v) hw (by simp)
    have hdigits : Nat.ofDigitChars 10 (w ++ v) 0 =
        10 ^ v.length * Nat.ofDigitChars 10 w 0 + Nat.ofDigitChars 10 v 0 := by
      rw [Nat.ofDigitChars_append, Nat.ofDigitChars_eq_ofDigitChars_zero]
    simp only [Decimal.ofText, Decimal.value, htake, hdrop, List.drop_one, List.tail_cons, hdigits]
    push_cast
    field_simp

/-! ### Floats and their magnitudes -/

namespace Number

open Float.Model UnpackedFloat

theorem ofMagnitude_magnitude {x : Float} (h : negative x = false) :
    ofMagnitude (magnitude x) = x := by
  have hsign : x.toBits.toNat < Nat.pow 2 63 := Nat.lt_of_not_le (of_decide_eq_false h)
  rw [ofMagnitude, magnitude, Nat.mod_eq_of_lt hsign, UInt64.ofNat_toNat, Float.ofBits_toBits]

/-- A word stands for a finite float unless its exponent is all ones. -/
theorem isFinite_unpack_iff (b : BitVec Format.binary64.numBits) :
    (UnpackedFloat.unpack .binary64 b).isFinite = true ↔ unpackExponent b ≠ -1#11 := by
  unfold UnpackedFloat.unpack
  dsimp only
  split
  · rename_i hones
    have hfalse : ¬ unpackExponent b ≠ -1#11 := fun hne => hne hones
    split <;> exact iff_of_false Bool.false_ne_true hfalse
  · rename_i hones
    split
    · split <;> exact iff_of_true rfl hones
    · exact iff_of_true rfl hones

/-- The exponent stands above the fifty-two bits of the mantissa. -/
theorem unpackExponent_ne_ones_iff (b : BitVec Format.binary64.numBits) :
    unpackExponent b ≠ -1#11 ↔ b.toNat / 2 ^ 52 % 2 ^ 11 < 2047 := by
  rw [Ne, ← BitVec.toNat_inj, unpackExponent_def, BitVec.extractLsb'_toNat,
    Nat.shiftRight_eq_div_pow]
  show ¬ b.toNat / 2 ^ 52 % 2 ^ 11 = 2047 ↔ _
  omega

/-- **A float is finite if its magnitude is below infinity.** -/
theorem isFinite_iff (x : Float) : x.isFinite = true ↔ magnitude x < Binary64.infinity := by
  refine (isFinite_unpack_iff x.toBits.toBitVec).trans
    ((unpackExponent_ne_ones_iff x.toBits.toBitVec).trans ?_)
  show x.toBits.toNat / 2 ^ 52 % 2 ^ 11 < 2047 ↔ x.toBits.toNat % 2 ^ 63 < 2047 * 2 ^ 52
  omega

/-- **A word up to infinity is the word of its float.**  Above infinity are the values that are
no number, which share one word. -/
theorem toBits_ofBits {b : UInt64} (h : b.toNat ≤ Binary64.infinity) :
    (Float.ofBits b).toBits = b := by
  have hvalid : Format.binary64.Valid b.toBitVec := by
    constructor
    intro hones hmantissa
    refine absurd ?_ hmantissa
    have hexponent := (not_congr (unpackExponent_ne_ones_iff b.toBitVec)).mp (not_not_intro hones)
    rw [← BitVec.toNat_inj, unpackMantissa_def, BitVec.extractLsb'_toNat]
    show b.toNat >>> 0 % 2 ^ 52 = 0
    have hword : b.toBitVec.toNat = b.toNat := rfl
    rw [hword] at hexponent
    unfold Binary64.infinity at h
    simp only [Nat.pow_eq, Nat.shiftRight_zero] at h ⊢
    omega
  exact congrArg Float.toBits (Float.ofBits_toBits ⟨⟨b, hvalid⟩⟩)

/-- The bits of `x` are the number of the magnitude that `q` rounds to, which is infinity beyond
the finite ones.  The sign bit is clear then. -/
def Nearest (q : ℚ) (x : Float) : Prop :=
  ∃ k, Binary64.RoundsTo q k ∧ x.toBits.toNat = min k Binary64.infinity

/-- **A text is read as the float nearest to the number that it writes.** -/
theorem nearest_ofText {w : List Char} {q : ℚ} (h : Numeral w q) : Nearest q (ofText w) := by
  obtain ⟨k, hrounds, hnearest⟩ := Binary64.exists_roundsTo (Decimal.ofText w)
  rw [h.value_ofText] at hrounds
  refine ⟨k, hrounds, ?_⟩
  have hle : min k Binary64.infinity ≤ Binary64.infinity := Nat.min_le_right _ _
  have hlt : min k Binary64.infinity < 2 ^ 64 := by
    unfold Binary64.infinity at hle ⊢
    simp only [Nat.pow_eq] at hle ⊢
    omega
  have hword : (UInt64.ofNat (min k Binary64.infinity)).toNat = min k Binary64.infinity :=
    UInt64.toNat_ofNat_of_lt' hlt
  rw [ofText, hnearest, ofMagnitude, toBits_ofBits (by rwa [hword]), hword]

end Number
end LoxLang
