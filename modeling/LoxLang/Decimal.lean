/-! # Decimals in positional notation

A decimal is held as a whole number of units of `10 ^ (-places)`.  `toText`
writes it without an exponent: the digits of `units`, padded on the left so that
at least one digit stands before the point, with the point set `places` digits
from the right and left out when there are none behind it.  `ofText` reads that
notation.  The main statement, `ofText_toText`, is that reading undoes writing,
trailing zeros included.
-/
namespace LoxLang

/-- The nonnegative decimal `units / 10 ^ places`. -/
structure Decimal where
  /-- How many units of `10 ^ (-places)` it is. -/
  units : Nat
  /-- How many digits stand behind the point. -/
  places : Nat
deriving Repr, DecidableEq

namespace Decimal

/-- The digits of `d`, point left out, with at least one of them before the
point. -/
def digits (d : Decimal) : List Char :=
  let significant := Nat.toDigits 10 d.units
  List.replicate (d.places + 1 - significant.length) '0' ++ significant

/-- `d` in positional notation. -/
def toText (d : Decimal) : List Char :=
  if d.places = 0 then d.digits
  else
    let whole := d.digits.length - d.places
    d.digits.take whole ++ '.' :: d.digits.drop whole

/-- The decimal that `cs` writes: digits, then possibly a point and more
digits. -/
def ofText (cs : List Char) : Decimal :=
  let whole := cs.takeWhile Char.isDigit
  let fraction := (cs.dropWhile Char.isDigit).drop 1
  ⟨Nat.ofDigitChars 10 (whole ++ fraction) 0, fraction.length⟩

/-! ### Reading undoes writing -/

theorem isDigit_of_mem_digits {d : Decimal} {c : Char} (h : c ∈ d.digits) :
    c.isDigit = true := by
  rw [digits, List.mem_append] at h
  rcases h with h | h
  · rw [(List.mem_replicate.mp h).2]; decide
  · exact Nat.isDigit_of_mem_toDigits (by decide) (by decide) h

theorem places_lt_length_digits (d : Decimal) : d.places < d.digits.length := by
  have := Nat.length_toDigits_pos (b := 10) (n := d.units)
  simp only [digits, List.length_append, List.length_replicate]
  omega

theorem ofDigitChars_digits (d : Decimal) : Nat.ofDigitChars 10 d.digits 0 = d.units := by
  rw [digits, Nat.ofDigitChars_append, Nat.ofDigitChars_replicate_zero]
  simp [Nat.ofDigitChars_toDigits]

/-- A run of digits that a non-digit or the end follows is what `takeWhile`
takes. -/
theorem takeWhile_isDigit_append (ds rest : List Char) (hd : ∀ c ∈ ds, c.isDigit = true)
    (hr : ∀ c ∈ rest.head?, c.isDigit = false) :
    (ds ++ rest).takeWhile Char.isDigit = ds ∧ (ds ++ rest).dropWhile Char.isDigit = rest := by
  induction ds with
  | nil =>
    cases rest with
    | nil => simp
    | cons c rest => simp [hr c (by simp)]
  | cons c ds ih =>
    have := ih (fun x hx => hd x (List.mem_cons_of_mem c hx))
    simp [hd c List.mem_cons_self, this]

/-- **Reading undoes writing.** -/
theorem ofText_toText (d : Decimal) : ofText d.toText = d := by
  have hlen := d.places_lt_length_digits
  by_cases hp : d.places = 0
  · have h := takeWhile_isDigit_append d.digits []
      (fun _ => isDigit_of_mem_digits) (by simp)
    simp only [List.append_nil] at h
    simp [ofText, toText, hp, h.1, h.2, ofDigitChars_digits]
    cases d; simp_all
  · have h := takeWhile_isDigit_append (d.digits.take (d.digits.length - d.places))
      ('.' :: d.digits.drop (d.digits.length - d.places))
      (fun _ hc => isDigit_of_mem_digits (List.mem_of_mem_take hc)) (by simp)
    simp only [ofText, toText, hp, if_false, h.1, h.2, List.drop_succ_cons, List.drop_zero,
      List.take_append_drop, ofDigitChars_digits, List.length_drop]
    cases d; simp at *; omega

end Decimal
end LoxLang
