import LoxLang.Binary64.Basic

/-! # The shortest decimal that reads back

Magnitudes and candidate decimals are compared in units of `10 ^ (-1074)`, in
which both are whole numbers (`exactUnits`).  The decimals that round to a given
magnitude form a window around it, bounded by the midpoints to its two
neighbours.  `shortest` looks at coarser decimal grids before finer ones, and on
each at the two grid points around the magnitude; the first grid with a point in
the window decides.  The finest grid contains the magnitude itself, so the
search always ends in the window.
-/
namespace LoxLang.Binary64

/-- The magnitude numbered `k`, in units of `10 ^ (-1074)`. -/
def exactUnits (k : Nat) : Nat := scaled k * Nat.pow 5 1074

/-- Doubled bounds of a set of decimals in units of `10 ^ (-1074)`, and whether
the bounds belong to it. -/
structure Window where
  /-- Twice the lower bound. -/
  low : Nat
  /-- Twice the upper bound. -/
  high : Nat
  /-- Whether the bounds themselves belong to the set. -/
  closed : Bool

/-- Whether the decimal `c` lies in the window. -/
def Window.holds (w : Window) (c : Nat) : Bool :=
  if w.closed then w.low ≤ 2 * c && 2 * c ≤ w.high else w.low < 2 * c && 2 * c < w.high

/-- The decimals that round to the magnitude numbered `k`.  A midpoint belongs to
its even neighbour. -/
def window (k : Nat) : Window where
  low := exactUnits (k - 1) + exactUnits k
  high := exactUnits k + exactUnits (k + 1)
  closed := k % 2 = 0

/-- The multiplier of the multiple of `10 ^ j` in `w` nearest to `n`, the upper
one of two that are equally near. -/
def onGrid? (w : Window) (n j : Nat) : Option Nat :=
  let d := n / Nat.pow 10 j
  let below := d * Nat.pow 10 j
  let above := below + Nat.pow 10 j
  match w.holds below, w.holds above with
  | true, true => some (if n - below < above - n then d else d + 1)
  | true, false => some d
  | false, true => some (d + 1)
  | false, false => none

/-- The decimal `d * 10 ^ j` in units of `10 ^ (-1074)`. -/
def ofGrid (d j : Nat) : Decimal := ⟨d * Nat.pow 10 (j - 1074), 1074 - j⟩

/-- The first decimal in `w` around `n` on the grids `j, j - 1, …, 0`. -/
def search (w : Window) (n : Nat) : Nat → Decimal
  | 0 => ofGrid n 0
  | j + 1 =>
    match onGrid? w n (j + 1) with
    | some d => ofGrid d (j + 1)
    | none => search w n j

/-- A number of decimal digits that is enough for `n`: `2 ^ 93` has no more than
28 of them. -/
def digitBound (n : Nat) : Nat := (n.log2 + 1) * 28 / 93 + 1

/-- The decimal with the fewest digits that rounds to the magnitude numbered `k`,
of those the nearest to it, and of two equally near the greater. -/
def shortest (k : Nat) : Decimal :=
  if k = 0 then ⟨0, 0⟩ else search (window k) (exactUnits k) (digitBound (exactUnits k))

/-- The magnitude numbered `k` when it is a whole number. -/
def whole? (k : Nat) : Option Nat :=
  if scaled k % Nat.pow 2 1074 = 0 then some (scaled k / Nat.pow 2 1074) else none

end LoxLang.Binary64
