import LoxLang.Decimal
import Mathlib.Algebra.Ring.Nat
import Mathlib.Data.List.Basic

/-! # Positional notation without superfluous zeros

The digits of a decimal are those of its whole part and one more for each place
(`exists_digits_eq`), since with one place more the last digit moves behind the point
(`digits_succ`).  So the text of a decimal begins with a zero only if its whole part is zero,
and then that zero stands alone before the point; and what stands behind the point ends with
the last digit of the units.  A decimal whose units do not end with a zero is therefore
written canonically (`canonical_toText`), and so is one without places.
-/
namespace LoxLang.Decimal

variable {d : Decimal} {n : Nat}

/-- Digits without superfluous zeros in front: a zero stands there only alone. -/
structure IsWhole (cs : List Char) : Prop where
  nonempty : cs ≠ []
  digits : ∀ c ∈ cs, c.isDigit = true
  lead : cs.head? = some '0' → cs = ['0']

/-- Digits that do not end with a zero. -/
structure IsFraction (cs : List Char) : Prop where
  nonempty : cs ≠ []
  digits : ∀ c ∈ cs, c.isDigit = true
  last : cs.getLast? ≠ some '0'

/-- Positional notation without superfluous zeros and without an exponent. -/
inductive Canonical : List Char → Prop
  | whole {cs : List Char} : IsWhole cs → Canonical cs
  | fraction {cs fs : List Char} : IsWhole cs → IsFraction fs → Canonical (cs ++ '.' :: fs)

theorem head?_toDigits_ne_zero (hn : 0 < n) : (Nat.toDigits 10 n).head? ≠ some '0' := by
  induction n using Nat.strongRecOn with
  | ind n ih =>
    by_cases hlt : n < 10
    · rw [Nat.toDigits_of_lt_base hlt, List.head?_cons, Ne, Option.some_inj, Nat.digitChar_eq_zero]
      omega
    · rw [Nat.toDigits_of_base_le (by decide) (by omega),
        List.head?_append_of_ne_nil _ Nat.toDigits_ne_nil]
      exact ih (n / 10) (by omega) (by omega)

theorem isWhole_toDigits (n : Nat) : IsWhole (Nat.toDigits 10 n) where
  nonempty := Nat.toDigits_ne_nil
  digits c := Nat.isDigit_of_mem_toDigits (by decide) (by decide)
  lead h := by
    rcases Nat.eq_zero_or_pos n with rfl | hpos
    · exact Nat.toDigits_zero 10
    · exact absurd h (head?_toDigits_ne_zero hpos)

/-- With one place more, the last digit is split off. -/
theorem digits_succ (u p : Nat) :
    digits ⟨u, p + 1⟩ = digits ⟨u / 10, p⟩ ++ [Nat.digitChar (u % 10)] := by
  unfold digits
  dsimp only
  by_cases hlt : u < 10
  · rw [Nat.toDigits_of_lt_base hlt, Nat.div_eq_of_lt hlt, Nat.mod_eq_of_lt hlt, Nat.toDigits_zero,
      List.length_singleton, List.length_singleton, Nat.add_sub_cancel, Nat.add_sub_cancel,
      List.replicate_succ']
  · rw [Nat.toDigits_of_base_le (by decide) (Nat.le_of_not_lt hlt), List.length_append,
      List.length_singleton, Nat.add_sub_add_right, List.append_assoc]

/-- **The digits are those of the whole part and one for each place.** -/
theorem exists_digits_eq (u p : Nat) :
    ∃ fs, digits ⟨u, p⟩ = Nat.toDigits 10 (u / 10 ^ p) ++ fs ∧ fs.length = p ∧
      (p ≠ 0 → fs.getLast? = some (Nat.digitChar (u % 10))) := by
  induction p generalizing u with
  | zero =>
    refine ⟨[], ?_, rfl, fun hzero => absurd rfl hzero⟩
    unfold digits
    dsimp only
    rw [Nat.sub_eq_zero_of_le Nat.length_toDigits_pos, List.replicate_zero, List.nil_append,
      List.append_nil, Nat.pow_zero, Nat.div_one]
  | succ p ih =>
    obtain ⟨fs, hdigits, hlength, -⟩ := ih (u / 10)
    refine ⟨fs ++ [Nat.digitChar (u % 10)], ?_, ?_, fun _ => List.getLast?_concat⟩
    · rw [digits_succ, hdigits, Nat.div_div_eq_div_mul, ← Nat.pow_succ', List.append_assoc]
    · rw [List.length_append, hlength, List.length_singleton]

/-- A whole number is written as its digits alone. -/
theorem toText_of_places_eq_zero (h : d.places = 0) : d.toText = Nat.toDigits 10 d.units := by
  obtain ⟨fs, hdigits, hlength, -⟩ := exists_digits_eq d.units d.places
  rw [h, List.length_eq_zero_iff] at hlength
  rw [toText, if_pos h, hdigits, hlength, h, Nat.pow_zero, Nat.div_one, List.append_nil]

/-- Any other decimal is written as its whole part, the point and a digit for each place. -/
theorem exists_toText_eq (h : d.places ≠ 0) :
    ∃ fs, d.toText = Nat.toDigits 10 (d.units / 10 ^ d.places) ++ '.' :: fs ∧
      fs.length = d.places ∧ (∀ c ∈ fs, c.isDigit = true) ∧
      fs.getLast? = some (Nat.digitChar (d.units % 10)) := by
  obtain ⟨fs, hdigits, hlength, hlast⟩ := exists_digits_eq d.units d.places
  refine ⟨fs, ?_, hlength, ?_, hlast h⟩
  · rw [toText, if_neg h]
    dsimp only
    rw [hdigits, List.length_append, hlength, Nat.add_sub_cancel, List.take_left, List.drop_left]
  · intro c hc
    apply isDigit_of_mem_digits
    rw [hdigits]
    exact List.mem_append_right _ hc

/-- **A decimal is written canonically** if it does not end with a zero behind the point. -/
theorem canonical_toText (h : d.places = 0 ∨ d.units % 10 ≠ 0) : Canonical d.toText := by
  by_cases hplaces : d.places = 0
  · rw [toText_of_places_eq_zero hplaces]
    exact .whole (isWhole_toDigits d.units)
  · obtain ⟨fs, htext, hlength, hdigits, hlast⟩ := exists_toText_eq hplaces
    rw [htext]
    refine .fraction (isWhole_toDigits _) ⟨?_, hdigits, ?_⟩
    · apply List.ne_nil_of_length_pos
      omega
    · rw [hlast, Ne, Option.some_inj, Nat.digitChar_eq_zero]
      exact h.resolve_left hplaces

/-- A whole number with one place is written with a zero behind the point. -/
theorem toText_tenfold (n : Nat) :
    (⟨n * 10, 1⟩ : Decimal).toText = Nat.toDigits 10 n ++ ['.', '0'] := by
  obtain ⟨fs, htext, hlength, -, hlast⟩ := exists_toText_eq (d := ⟨n * 10, 1⟩) Nat.one_ne_zero
  obtain ⟨c, rfl⟩ := List.length_eq_one_iff.mp hlength
  rw [List.getLast?_singleton, Nat.mul_mod_left, Option.some_inj] at hlast
  rw [htext, hlast, Nat.pow_one, Nat.mul_div_cancel n (by decide)]
  rfl

end LoxLang.Decimal
