import LoxLang.Decimal

/-! # Binary64 magnitudes as whole numbers

The finite magnitudes of the binary64 format are numbered by their bits without
the sign: `0, 1, 2, …, infinity - 1`, in increasing order.  Every one of them is
a whole multiple of `2 ^ (-1074)`, so `scaled k`, the magnitude numbered `k` in
that unit, is a natural number, and rounding a decimal needs no arithmetic but
that of `Nat`.
-/
namespace LoxLang.Binary64

/-- The number of the infinite magnitude, one above the greatest finite one. -/
def infinity : Nat := 2047 * Nat.pow 2 52

/-- The magnitude numbered `k`, in units of `2 ^ (-1074)`.  Up to `2 ^ 52` the
units are counted one by one; above, each block of `2 ^ 52` numbers has steps
twice as wide as the one before it. -/
def scaled (k : Nat) : Nat :=
  if k < Nat.pow 2 52 then k
  else (Nat.pow 2 52 + k % Nat.pow 2 52) * Nat.pow 2 (k / Nat.pow 2 52 - 1)

/-- The whole number nearest to `n / d`, and the even one of two that are
equally near. -/
def roundDiv (n d : Nat) : Nat :=
  let q := n / d
  let r := n % d
  if 2 * r < d ∨ (2 * r = d ∧ q % 2 = 0) then q else q + 1

/-- The number of the magnitude nearest to `d`, and the even one of two that are
equally near; decimals beyond the finite range go to `infinity`.

`shift` is the number of doublings of the step at the size of `d`.  A quotient
that rounds up to `2 ^ 53` steps needs no care, since it numbers the first
magnitude of the next block. -/
def nearest (d : Decimal) : Nat :=
  let n := d.units * Nat.pow 2 1074
  let denominator := Nat.pow 10 d.places
  let shift := (n / denominator).log2 - 52
  min (shift * Nat.pow 2 52 + roundDiv n (denominator * Nat.pow 2 shift)) infinity

end LoxLang.Binary64
