import LoxLang.Proofs.NumberText
import LoxLang.Proofs.Positional
import LoxLang.Proofs.ShortestDecimal

/-! # Texts of numbers are shortest, or exact

A float is a sign and a magnitude, and the two round separately: what rounds to a float has
its sign, unless the float is zero, and its size rounds to the magnitude
(`Number.RoundsTo.magnitude`).  So the decimal that is shortest for the magnitude is, behind
the sign, the shortest for the float (`Number.shortest_of_magnitude`), and `text` writes it
without a superfluous zero.  `literalText` writes a whole number in full instead.

Up to `2 ^ 53` a whole number is its own shortest decimal and the two texts differ only by the
place behind the point.  The main statement is `Number.text_shortest_literalText_exact`.
-/
namespace LoxLang.Number

/-! ### Signs -/

/-- `q`, or its negative if `minus` is set. -/
def signed (minus : Bool) (q : ℚ) : ℚ := if minus then -q else q

/-- The number that a finite float is. -/
def value (x : Float) : ℚ := signed (negative x) (Binary64.value (magnitude x))

/-- Rounding to nearest: no signed magnitude is nearer to `q` than `x`, and if another is as
near, the last bit of `x` is clear.  As for magnitudes alone, whether `q` is too great is
decided after rounding, so the signed magnitudes go on beyond `infinity`. -/
structure RoundsTo (q : ℚ) (x : Float) : Prop where
  nearest : ∀ s j, |q - value x| ≤ |q - signed s (Binary64.value j)|
  even : ∀ s j, signed s (Binary64.value j) ≠ value x →
    |q - signed s (Binary64.value j)| = |q - value x| → magnitude x % 2 = 0

variable {x : Float} {q a : ℚ} {s : Bool}

theorem signed_zero (s : Bool) : signed s 0 = 0 := by
  cases s
  · rfl
  · exact neg_zero

theorem signed_injective (s : Bool) : Function.Injective (signed s) := by
  cases s
  · exact fun _ _ => id
  · exact fun _ _ => neg_inj.mp

theorem abs_signed (s : Bool) (q : ℚ) : |signed s q| = |q| := by
  cases s
  · rfl
  · exact abs_neg q

/-- Numbers of one sign are as far apart as their sizes. -/
theorem abs_signed_sub_signed (s : Bool) (q a : ℚ) : |signed s q - signed s a| = |q - a| := by
  cases s
  · rfl
  · show |-q - -a| = |q - a|
    rw [neg_sub_neg, abs_sub_comm]

/-- Numbers of opposite signs have zero between them. -/
theorem abs_signed_sub_signed_of_ne {r : Bool} (h : s ≠ r) (hq : 0 ≤ q) (ha : 0 ≤ a) :
    |signed s q - signed r a| = q + a := by
  cases s <;> cases r
  · exact absurd rfl h
  · show |q - -a| = q + a
    rw [sub_neg_eq_add, abs_of_nonneg (add_nonneg hq ha)]
  · show |-q - a| = q + a
    rw [← neg_add', abs_neg, abs_of_nonneg (add_nonneg hq ha)]
  · exact absurd rfl h

/-- What rounds to a float has its sign, or the float is zero. -/
theorem RoundsTo.value_eq (h : RoundsTo (signed s q) x) (hq : 0 ≤ q) :
    value x = signed s (Binary64.value (magnitude x)) := by
  by_cases hs : s = negative x
  · rw [hs]
    rfl
  · have hzero := h.nearest s 0
    have hnonneg := Binary64.value_nonneg (magnitude x)
    rw [value, abs_signed_sub_signed_of_ne hs hq hnonneg, Binary64.value_zero, signed_zero,
      sub_zero, abs_signed, abs_of_nonneg hq] at hzero
    have hmagnitude : Binary64.value (magnitude x) = 0 := by linarith
    rw [value, hmagnitude, signed_zero, signed_zero]

/-- **A sign and a magnitude round separately.** -/
theorem RoundsTo.magnitude (h : RoundsTo (signed s q) x) (hq : 0 ≤ q) :
    Binary64.RoundsTo q (magnitude x) := by
  have hvalue := h.value_eq hq
  refine ⟨?_, ?_⟩
  · intro j
    have hnearest := h.nearest s j
    rwa [hvalue, abs_signed_sub_signed, abs_signed_sub_signed] at hnearest
  · intro j hne htie
    apply h.even s j
    · rw [hvalue]
      exact (signed_injective s).ne (Binary64.value_strictMono.injective.ne hne)
    · rwa [hvalue, abs_signed_sub_signed, abs_signed_sub_signed]

/-- A number of the size that rounds to the magnitude rounds, with the sign, to the float. -/
theorem roundsTo_of_magnitude (h : Binary64.RoundsTo q (magnitude x)) (hq : 0 ≤ q) :
    RoundsTo (signed (negative x) q) x := by
  -- a number of the other sign is no nearer than zero
  have hzero := h.nearest 0
  rw [Binary64.value_zero, sub_zero, abs_of_nonneg hq] at hzero
  refine ⟨?_, ?_⟩
  · intro s j
    rw [value, abs_signed_sub_signed]
    by_cases hs : negative x = s
    · rw [hs, abs_signed_sub_signed]
      exact h.nearest j
    · rw [abs_signed_sub_signed_of_ne hs hq (Binary64.value_nonneg j)]
      have := Binary64.value_nonneg j
      linarith
  · intro s j hne htie
    rw [value] at hne htie
    rw [abs_signed_sub_signed] at htie
    by_cases hs : negative x = s
    · rw [hs, abs_signed_sub_signed] at htie
      rw [hs, (signed_injective s).ne_iff] at hne
      exact h.even j (fun hj => hne (congrArg _ hj)) htie
    · rw [abs_signed_sub_signed_of_ne hs hq (Binary64.value_nonneg j)] at htie
      have hj : Binary64.value j = 0 := by
        have := Binary64.value_nonneg j
        linarith
      apply h.even 0
      · intro hzero
        rw [hj, ← hzero, Binary64.value_zero, signed_zero, signed_zero] at hne
        exact hne rfl
      · rw [Binary64.value_zero, sub_zero, abs_of_nonneg hq]
        linarith

/-! ### The shortest decimal of a float -/

/-- With the sign of `x`, `d` rounds to `x`, no decimal with fewer significant digits does,
and none with as many is nearer. -/
structure Shortest (d : Decimal) (x : Float) : Prop where
  rounds : RoundsTo (signed (negative x) d.value) x
  fewest : ∀ s (e : Decimal), RoundsTo (signed s e.value) x → d.significant ≤ e.significant
  nearest : ∀ s (e : Decimal), RoundsTo (signed s e.value) x → e.significant = d.significant →
    |signed (negative x) d.value - value x| ≤ |signed s e.value - value x|

theorem shortest_of_magnitude {d : Decimal} (h : Binary64.Shortest d (magnitude x)) :
    Shortest d x := by
  refine ⟨roundsTo_of_magnitude h.rounds d.value_nonneg, ?_, ?_⟩
  · intro s e he
    exact h.fewest e (he.magnitude e.value_nonneg)
  · intro s e he hsame
    rw [he.value_eq e.value_nonneg, abs_signed_sub_signed, ← he.value_eq e.value_nonneg, value,
      abs_signed_sub_signed]
    exact h.nearest e (he.magnitude e.value_nonneg) hsame

/-! ### The two texts -/

/-- The sign that `x` is written with. -/
def sign (x : Float) : String := if negative x then "-" else ""

/-- Either the shortest decimal has no places or its last digit is not zero. -/
theorem canonical_shortest (k : Nat) : Decimal.Canonical (Binary64.shortest k).toText := by
  apply Decimal.canonical_toText
  rcases Nat.eq_zero_or_pos k with rfl | hk
  · exact .inl rfl
  · obtain ⟨m, j, hshortest, hcoarsest⟩ := Binary64.exists_coarsest_shortest hk
    have hdvd := hcoarsest.not_dvd
    rw [hshortest, Binary64.ofGrid]
    dsimp only
    generalize 1074 = e
    by_cases hle : e ≤ j
    · exact .inl (Nat.sub_eq_zero_of_le hle)
    · right
      rw [Nat.sub_eq_zero_of_le (Nat.le_of_not_le hle)]
      show m * 1 % 10 ≠ 0
      omega

/-- Whether a float is a whole number, and which, is found exactly. -/
theorem abs_value_eq_iff {n : Nat} :
    |value x| = n ↔ Binary64.whole? (magnitude x) = some n := by
  rw [value, abs_signed, abs_of_nonneg (Binary64.value_nonneg _), Binary64.whole?_eq_some_iff,
    Binary64.value]
  generalize 1074 = e
  rw [div_eq_iff (by positivity), Nat.pow_eq]
  exact_mod_cast Iff.rfl

theorem literalText_of_whole {n : Nat} (hfinite : x.isFinite = true) (h : |value x| = n) :
    literalText x = sign x ++ n.repr ++ ".0" := by
  rw [literalText, textWith_of_isFinite hfinite, literalDecimal, abs_value_eq_iff.mp h]
  dsimp only
  rw [Decimal.toText_tenfold, String.ofList_append, String.append_assoc]
  rfl

theorem literalText_eq_text (hfinite : x.isFinite = true) (h : ∀ n : Nat, |value x| ≠ n) :
    literalText x = text x := by
  have hnone : Binary64.whole? (magnitude x) = none := by
    rw [Option.eq_none_iff_forall_ne_some]
    intro n hn
    exact h n (abs_value_eq_iff.mpr hn)
  rw [literalText, text, textWith_of_isFinite hfinite, textWith_of_isFinite hfinite,
    literalDecimal, hnone]

/-- A whole number up to `2 ^ 53` is written in full by `text` too. -/
theorem text_of_whole {n : Nat} (hfinite : x.isFinite = true) (h : |value x| = n)
    (hn : n ≤ 2 ^ 53) : text x = sign x ++ n.repr := by
  rw [text, textWith_of_isFinite hfinite,
    Binary64.shortest_of_whole? (abs_value_eq_iff.mp h) hn, Decimal.toText_of_places_eq_zero rfl]
  rfl

/-- **Texts of numbers are shortest, or exact.**  The text of a finite float is a sign if the
sign bit is set, and a decimal in positional notation without a superfluous zero; the decimal
rounds to the float, none with fewer significant digits does, and of those with as many none is
nearer.  The text as a literal is the whole number in full and a zero behind the point, or the
same text if the float is not a whole number.  Up to `2 ^ 53` it is the text with a zero behind
the point. -/
theorem text_shortest_literalText_exact (x : Float) (hfinite : x.isFinite = true) :
    (∃ cs, text x = sign x ++ String.ofList cs ∧ Decimal.Canonical cs ∧
        Shortest (Decimal.ofText cs) x) ∧
      (∀ n : Nat, |value x| = n → literalText x = sign x ++ n.repr ++ ".0") ∧
      ((∀ n : Nat, |value x| ≠ n) → literalText x = text x) ∧
      ∀ n : Nat, |value x| = n → n ≤ 2 ^ 53 → literalText x = text x ++ ".0" := by
  refine ⟨⟨(Binary64.shortest (magnitude x)).toText, ?_, canonical_shortest _, ?_⟩, ?_, ?_, ?_⟩
  · exact textWith_of_isFinite hfinite
  · rw [Decimal.ofText_toText]
    exact shortest_of_magnitude (Binary64.shortest_shortest _)
  · intro n hn
    exact literalText_of_whole hfinite hn
  · exact literalText_eq_text hfinite
  · intro n hn hle
    rw [literalText_of_whole hfinite hn, text_of_whole hfinite hn hle]

/-- The float nearest to `10 ^ 23` lies below it.  The power is its shortest decimal, and as a
literal it shows all its digits. -/
theorem text_shortest_power_of_ten :
    (Float.ofBits 0x44B52D02C7E14AF6).isFinite = true ∧
      Shortest ⟨10 ^ 23, 0⟩ (Float.ofBits 0x44B52D02C7E14AF6) ∧
      literalText (Float.ofBits 0x44B52D02C7E14AF6) = "99999999999999991611392.0" := by
  have hfinite : (Float.ofBits 0x44B52D02C7E14AF6).isFinite = true := by decide +kernel
  have hwhole : |value (Float.ofBits 0x44B52D02C7E14AF6)| = (99999999999999991611392 : Nat) := by
    rw [abs_value_eq_iff]
    decide +kernel
  have htext : text (Float.ofBits 0x44B52D02C7E14AF6) = "100000000000000000000000" := by
    decide +kernel
  have hsign : sign (Float.ofBits 0x44B52D02C7E14AF6) = "" := by decide +kernel
  obtain ⟨⟨cs, hcs, -, hshortest⟩, hliteral, -⟩ := text_shortest_literalText_exact _ hfinite
  rw [htext, hsign, String.empty_append] at hcs
  have hdecimal : Decimal.ofText cs = ⟨10 ^ 23, 0⟩ := by
    rw [← String.toList_ofList (l := cs), ← hcs]
    decide +kernel
  refine ⟨hfinite, hdecimal ▸ hshortest, ?_⟩
  rw [hliteral _ hwhole, hsign]
  decide +kernel

end LoxLang.Number
