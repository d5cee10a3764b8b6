import Mathlib
import LoxLang.Proofs.NumberReading
import LoxLang.Proofs.PieceEnds
import LoxLang.Proofs.ReadBack
import LoxLang.Scan

/-! # Numbers survive being written and scanned

A decimal in positional notation is the text of a number and of nothing else, so scanning
it finds that one token (`scan_toText`).  Its value is what the decimal rounds to.  For
both ways of writing a float that is the float itself, which is the main statement,
`scan_written_number`.
-/
namespace LoxLang

/-! ### Decimals as texts of numbers -/

namespace Decimal

/-- **A decimal is written as a number**, with a digit first. -/
theorem toText_lexeme (d : Decimal) :
    ∃ c w, d.toText = c :: w ∧ c.isDigit = true ∧ Lexeme (.matched .number) (c :: w) := by
  have hdigit (l : List Char) (hl : ∀ c ∈ l, c ∈ d.digits) : ∀ c ∈ l, c.isDigit = true :=
    fun c hc => isDigit_of_mem_digits (hl c hc)
  have hplaces := d.places_lt_length_digits
  unfold toText
  split
  · obtain ⟨c, w, hwhole⟩ := List.exists_cons_of_length_pos (Nat.zero_lt_of_lt hplaces)
    have hall := hdigit d.digits fun _ => id
    rw [hwhole, List.forall_mem_cons] at hall
    exact ⟨c, w, hwhole, hall.1, .whole hall.1 hall.2⟩
  · dsimp only
    generalize hcut : d.digits.length - d.places = cut
    obtain ⟨c, w, hwhole⟩ :=
      List.exists_cons_of_length_pos (l := d.digits.take cut) (by rw [List.length_take]; omega)
    obtain ⟨e, v, hfraction⟩ :=
      List.exists_cons_of_length_pos (l := d.digits.drop cut) (by rw [List.length_drop]; omega)
    have hleft := hdigit (d.digits.take cut) fun _ => List.mem_of_mem_take
    have hright := hdigit (d.digits.drop cut) fun _ => List.mem_of_mem_drop
    rw [hwhole, List.forall_mem_cons] at hleft
    rw [hfraction, List.forall_mem_cons] at hright
    rw [hwhole, hfraction]
    exact ⟨c, _, rfl, hleft.1, .fraction hleft.1 hleft.2 hright.1 hright.2⟩

theorem isDigit_or_point_of_mem_toText {d : Decimal} {c : Char} (h : c ∈ d.toText) :
    c.isDigit = true ∨ c = '.' := by
  unfold toText at h
  split at h
  · exact .inl (isDigit_of_mem_digits h)
  · rcases List.mem_append.mp h with h | h
    · exact .inl (isDigit_of_mem_digits (List.mem_of_mem_take h))
    · rcases List.mem_cons.mp h with h | h
      · exact .inr h
      · exact .inl (isDigit_of_mem_digits (List.mem_of_mem_drop h))

end Decimal

/-! ### Scanning what was written -/

/-- What scanning makes of a number on its own, written `s` and of the value `x`. -/
def Scan.number (s : String) (x : Float) : Scan where
  tokens := [⟨.number, s, some (.number x), 1⟩, Token.eof 1]
  errors := []

/-- **Scanning a decimal finds one number**, of the value that it rounds to. -/
theorem scan_toText (d : Decimal) :
    scan (String.ofList d.toText) =
      .number (String.ofList d.toText) (Number.ofMagnitude (Binary64.nearest d)) := by
  have hread : Number.ofText d.toText = Number.ofMagnitude (Binary64.nearest d) := by
    rw [Number.ofText, Decimal.ofText_toText]
  obtain ⟨c, w, htext, hc, hlexeme⟩ := d.toText_lexeme
  rw [htext] at hread ⊢
  have hpieces : Piece.pieces (c :: w) = [⟨.matched .number, c :: w⟩] := by
    rw [Piece.pieces_of_lexeme hlexeme, Piece.lead_digit hc]
  simp only [scan, Scan.ofChars, String.toList_ofList, hpieces, Scan.number, ← hread]
  rfl

namespace Number

variable {x : Float} {finite : Nat → Decimal}

/-- A finite number is written as a decimal, behind a sign if its sign bit is set. -/
theorem textWith_of_isFinite (hfinite : x.isFinite = true) :
    textWith finite x =
      (if negative x then "-" else "") ++ String.ofList (finite (magnitude x)).toText := by
  have hlt := (isFinite_iff x).mp hfinite
  unfold textWith
  dsimp only
  rw [if_neg (Nat.lt_asymm hlt), if_neg (Nat.ne_of_lt hlt)]

/-- A finite number with a clear sign bit is written as a decimal alone. -/
theorem textWith_eq (hfinite : x.isFinite = true) (hsign : negative x = false) :
    textWith finite x = String.ofList (finite (magnitude x)).toText := by
  rw [textWith_of_isFinite hfinite, hsign, if_neg Bool.false_ne_true, String.empty_append]

/-- A float that is written as a decimal that rounds back is scanned as itself. -/
theorem scan_textWith (hfinite : x.isFinite = true) (hsign : negative x = false)
    (hback : ∀ k, k < Binary64.infinity → Binary64.nearest (finite k) = k) :
    scan (textWith finite x) = .number (textWith finite x) x := by
  have hvalue := hback (magnitude x) ((isFinite_iff x).mp hfinite)
  rw [textWith_eq hfinite hsign, scan_toText, hvalue, ofMagnitude_magnitude hsign]

end Number

/-- **Numbers survive being written and scanned.**  Either text of a finite float with a
clear sign bit is scanned without a fault as one number, and its value is that float. -/
theorem scan_written_number (x : Float) (hfinite : x.isFinite = true)
    (hsign : Number.negative x = false) :
    scan (Number.text x) = .number (Number.text x) x ∧
      scan (Number.literalText x) = .number (Number.literalText x) x :=
  ⟨Number.scan_textWith hfinite hsign fun _ => Binary64.nearest_shortest,
    Number.scan_textWith hfinite hsign fun _ => Number.nearest_literalDecimal⟩

/-- The float nearest to `10 ^ 23` lies below it.  Its two texts show different decimals,
and both are scanned as this float. -/
theorem scan_written_power_of_ten :
    (Float.ofBits 0x44B52D02C7E14AF6).isFinite = true ∧
      Number.negative (Float.ofBits 0x44B52D02C7E14AF6) = false ∧
      scan "100000000000000000000000" =
        .number "100000000000000000000000" (Float.ofBits 0x44B52D02C7E14AF6) ∧
      scan "99999999999999991611392.0" =
        .number "99999999999999991611392.0" (Float.ofBits 0x44B52D02C7E14AF6) := by
  have hfinite : (Float.ofBits 0x44B52D02C7E14AF6).isFinite = true := by decide +kernel
  have hsign : Number.negative (Float.ofBits 0x44B52D02C7E14AF6) = false := by decide +kernel
  have htext : Number.text (Float.ofBits 0x44B52D02C7E14AF6) = "100000000000000000000000" := by
    decide +kernel
  have hliteral :
      Number.literalText (Float.ofBits 0x44B52D02C7E14AF6) = "99999999999999991611392.0" := by
    decide +kernel
  have hscan := scan_written_number _ hfinite hsign
  rw [htext, hliteral] at hscan
  exact ⟨hfinite, hsign, hscan⟩

end LoxLang
