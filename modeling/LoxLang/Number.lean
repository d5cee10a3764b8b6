import LoxLang.Binary64.Shortest

/-! # The text of numbers

Numbers are binary64 floats.  They are read as the nearest float of a decimal in
positional notation, and written in two ways: `text` with the fewest digits that
read back, `literalText` with a whole number in full and one place behind the
point.  Neither ever writes an exponent.
-/
namespace LoxLang.Number

/-- The number of the magnitude of `x`: its bits without the sign. -/
def magnitude (x : Float) : Nat := x.toBits.toNat % Nat.pow 2 63

/-- Whether the sign bit of `x` is set. -/
def negative (x : Float) : Bool := Nat.pow 2 63 ≤ x.toBits.toNat

/-- The float of the magnitude numbered `k`, with a clear sign bit. -/
def ofMagnitude (k : Nat) : Float := Float.ofBits (UInt64.ofNat k)

/-- The float nearest to the decimal that `cs` writes. -/
def ofText (cs : List Char) : Float := ofMagnitude (Binary64.nearest (Decimal.ofText cs))

/-- `x` with its finite magnitude written by `finite`.  Infinity and the value
that is no number are written by name, the latter without a sign. -/
def textWith (finite : Nat → Decimal) (x : Float) : String :=
  let k := magnitude x
  if Binary64.infinity < k then "NaN"
  else
    (if negative x then "-" else "") ++
      (if k = Binary64.infinity then "Infinity" else String.ofList (finite k).toText)

/-- `x` with the fewest digits that read back. -/
def text (x : Float) : String := textWith Binary64.shortest x

/-- The decimal that a literal of the magnitude numbered `k` shows: all digits of
a whole number and a zero behind the point, the shortest decimal of any other. -/
def literalDecimal (k : Nat) : Decimal :=
  match Binary64.whole? k with
  | some n => ⟨n * 10, 1⟩
  | none => Binary64.shortest k

/-- `x` as the literal of a dumped token shows it. -/
def literalText (x : Float) : String := textWith literalDecimal x

end LoxLang.Number
