import LoxLang.Scan
import LoxLang.Proofs.LongestMatch
import LoxLang.Proofs.NumberReading

/-! # Segmentations of a source

A longest-match scanner cuts off, again and again, the text that wins at the start of
what remains; a character at which no text of any role starts is cut off by itself.
`Segmentation` is that rule, over every role and every start of what remains, and the
pieces of a source are its only segmentation (`Piece.segmentation_iff`).

Each piece then gives one token, one error or nothing (`Yields`), and scanning adds
the end of the input.  The literal of a number is the float nearest to what its digits
denote, and that of a string is what stands between its quotes.  Together that is
`scan_by_longest_match`.  The lines of tokens and errors are left open here.
-/
namespace LoxLang

/-- The pieces cut a text from left to right.  Each is the start of what remains that
wins there, or else a single character, where no start of what remains is of any
role. -/
inductive Segmentation : List Char → List Piece → Prop
  | nil : Segmentation [] []
  | matched {r : Role} {w cs : List Char} {ps : List Piece} (h : r.Wins w (w ++ cs))
    (tail : Segmentation cs ps) : Segmentation (w ++ cs) (⟨r, w⟩ :: ps)
  | stray {c : Char} {cs : List Char} {ps : List Piece}
    (h : ∀ (r : Role) (w : List Char), w <+: c :: cs → ¬ r.Fits w)
    (tail : Segmentation cs ps) : Segmentation (c :: cs) (⟨.stray c, [c]⟩ :: ps)

namespace Piece

variable {c : Char} {cs : List Char} {ps : List Piece}

/-! ### The pieces of a source are its one segmentation -/

theorem segmentation_pieces (cs : List Char) : Segmentation cs (pieces cs) := by
  fun_induction pieces cs with
  | case1 => exact .nil
  | case2 c cs ih =>
    rcases first_wins_or_stray c cs with hwins | ⟨hstray, hnone⟩
    · have hsplit := text_first_append_drop c cs
      rw [← hsplit] at hwins ⊢
      exact .matched hwins ih
    · rw [drop_lead_of_stray hstray] at ih ⊢
      rw [hstray]
      exact .stray hnone ih

/-- Every segmentation starts with the first piece. -/
theorem exists_of_segmentation_cons (h : Segmentation (c :: cs) ps) :
    ∃ qs, ps = first c cs :: qs ∧ Segmentation (cs.drop (lead c cs).2) qs := by
  generalize hsource : c :: cs = source at h
  cases h with
  | nil => cases hsource
  | @matched r w rest qs hwins tail =>
    rw [← hsource] at hwins
    have hfirst := eq_first_of_wins hwins
    have hsplit := text_first_append_drop c cs
    rw [← hfirst, hsource] at hsplit
    rw [hfirst, List.append_cancel_left hsplit]
    exact ⟨qs, rfl, tail⟩
  | stray hnone tail =>
    obtain ⟨rfl, rfl⟩ := List.cons.inj hsource
    rcases first_wins_or_stray c cs with hwins | ⟨hstray, -⟩
    · exact absurd hwins.fits (hnone _ _ hwins.start)
    · rw [hstray, drop_lead_of_stray hstray]
      exact ⟨_, rfl, tail⟩

theorem eq_nil_of_segmentation_nil (h : Segmentation [] ps) : ps = [] := by
  generalize hsource : ([] : List Char) = source at h
  cases h with
  | nil => rfl
  | matched hwins _ =>
    have hne := (Role.fits_iff_lexeme.mp hwins.fits).ne_nil
    exact absurd (List.append_eq_nil_iff.mp hsource.symm).1 hne
  | stray => cases hsource

/-- **The pieces of a source are its one segmentation by the longest match.** -/
theorem segmentation_iff : Segmentation cs ps ↔ ps = pieces cs := by
  constructor
  · intro h
    fun_induction pieces cs generalizing ps with
    | case1 => exact eq_nil_of_segmentation_nil h
    | case2 c cs ih =>
      obtain ⟨qs, rfl, tail⟩ := exists_of_segmentation_cons h
      rw [ih tail]
  · rintro rfl
    exact segmentation_pieces cs

/-- A string that is still open takes all that remains. -/
theorem drop_lead_of_unclosed (h : (first c cs).role = .unclosed) :
    cs.drop (lead c cs).2 = [] := by
  rcases lead_lexeme c cs with hstray | hlexeme
  · rw [first, hstray] at h
    cases h
  · rw [show (lead c cs).1 = .unclosed from h] at hlexeme
    cases hlexeme
    rw [first, lead_quote] at h
    rw [lead_quote]
    split at h
    · cases h
    · rename_i hlt
      rw [if_neg hlt]
      exact List.drop_eq_nil_of_le (Nat.le_of_not_lt hlt)

end Piece

/-! ### The tokens and errors of a segmentation -/

/-- The token that a piece gives, on some line.  The literal of a number is the float nearest
to what its text writes. -/
inductive Emits : Piece → Token → Prop
  | number {w : List Char} {q : ℚ} {x : Float} (hw : Numeral w q) (hx : Number.Nearest q x)
    (line : Nat) :
    Emits ⟨.matched .number, w⟩ ⟨.number, String.ofList w, some (.number x), line⟩
  | string (body : List Char) (line : Nat) :
    Emits ⟨.matched .string, '"' :: (body ++ ['"'])⟩
      ⟨.string, String.ofList ('"' :: (body ++ ['"'])), some (.string (String.ofList body)), line⟩
  | plain {kind : Kind} (w : List Char) (line : Nat)
    (h : kind ∉ [.number, .string, .comment, .newline, .blank, .eof]) :
    Emits ⟨.matched kind, w⟩ ⟨kind, String.ofList w, none, line⟩

/-- The tokens and the errors that pieces give, in their order: one token for each
that is a token, one error for each stray character and one for a string that is
still open, which only the last piece can be. -/
inductive Yields : List Piece → List Token → List SyntaxError → Prop
  | nil : Yields [] [] []
  | token {p : Piece} {t : Token} {ps : List Piece} {ts : List Token} {es : List SyntaxError}
    (h : Emits p t) (tail : Yields ps ts es) : Yields (p :: ps) (t :: ts) es
  | silent {kind : Kind} {w : List Char} {ps : List Piece} {ts : List Token}
    {es : List SyntaxError} (h : kind ∈ [.comment, .newline, .blank]) (tail : Yields ps ts es) :
    Yields (⟨.matched kind, w⟩ :: ps) ts es
  | stray {c : Char} {ps : List Piece} {ts : List Token} {es : List SyntaxError} (line : Nat)
    (tail : Yields ps ts es) :
    Yields (⟨.stray c, [c]⟩ :: ps) ts (.strayCharacter c line :: es)
  | unclosed (w : List Char) (line : Nat) : Yields [⟨.unclosed, w⟩] [] [.unclosedString line]

theorem Emits.kind_ne_eof {p : Piece} {t : Token} (h : Emits p t) : t.kind ≠ .eof := by
  cases h with
  | number | string => exact nofun
  | plain _ _ hkind =>
    rintro rfl
    exact hkind (by simp)

theorem Emits.role_ne_unclosed {p : Piece} {t : Token} (h : Emits p t) : p.role ≠ .unclosed := by
  cases h <;> exact nofun

namespace Yields

variable {ps : List Piece} {ts : List Token} {es : List SyntaxError}

theorem kind_ne_eof (h : Yields ps ts es) : ∀ t ∈ ts, t.kind ≠ .eof := by
  induction h with
  | nil | unclosed => exact fun t ht => absurd ht List.not_mem_nil
  | silent _ _ ih | stray _ _ ih => exact ih
  | token hemits _ ih =>
    intro t ht
    rcases List.mem_cons.mp ht with rfl | ht
    · exact hemits.kind_ne_eof
    · exact ih t ht

theorem forall_mem_dropLast_cons {P : Piece → Prop} {p : Piece} (hp : P p)
    (hps : ∀ q ∈ ps.dropLast, P q) : ∀ q ∈ (p :: ps).dropLast, P q := by
  cases ps with
  | nil => exact fun q hq => absurd hq List.not_mem_nil
  | cons q qs =>
    rw [List.dropLast_cons_cons]
    exact List.forall_mem_cons.mpr ⟨hp, hps⟩

theorem role_ne_unclosed (h : Yields ps ts es) : ∀ p ∈ ps.dropLast, p.role ≠ .unclosed := by
  induction h with
  | nil | unclosed => exact fun p hp => absurd hp List.not_mem_nil
  | token hemits _ ih => exact forall_mem_dropLast_cons hemits.role_ne_unclosed ih
  | silent _ _ ih | stray _ _ ih => exact forall_mem_dropLast_cons nofun ih

end Yields

namespace Piece

/-- The text of a number writes one. -/
theorem exists_numeral {w : List Char} (h : (Role.matched .number).Fits w) :
    ∃ q, Numeral w q := by
  obtain ⟨c, v, hc, hv, rfl | ⟨d, u, rfl, hd, hu⟩⟩ := Role.fits_number_iff.mp h
  · exact ⟨_, .whole (List.forall_mem_cons.mpr ⟨hc, hv⟩)⟩
  · exact ⟨_, .point (w := c :: v) (List.forall_mem_cons.mpr ⟨hc, hv⟩)
      (List.forall_mem_cons.mpr ⟨hd, hu⟩)⟩

/-- A text of a kind is silent or gives its token. -/
theorem token?_matched {kind : Kind} {w : List Char} (h : (Role.matched kind).Fits w)
    (line : Nat) :
    kind ∈ [.comment, .newline, .blank] ∧ token? (line, ⟨.matched kind, w⟩) = none ∨
      ∃ t, token? (line, ⟨.matched kind, w⟩) = some t ∧ Emits ⟨.matched kind, w⟩ t := by
  by_cases hsilent : kind.silent = true
  · refine .inl ⟨by simpa [Kind.silent] using hsilent, ?_⟩
    rw [token?, if_pos hsilent]
  refine .inr ⟨_, by rw [token?, if_neg hsilent], ?_⟩
  by_cases hnumber : kind = .number
  · subst hnumber
    obtain ⟨q, hw⟩ := exists_numeral h
    exact .number hw (Number.nearest_ofText hw) line
  by_cases hstring : kind = .string
  · subst hstring
    obtain ⟨body, rfl, -⟩ := Role.fits_string_iff.mp h
    have hliteral : literal? .string ('"' :: (body ++ ['"'])) =
        some (.string (String.ofList body)) := by
      simp [literal?]
    rw [hliteral]
    exact .string body line
  have heof : kind ≠ .eof := by
    rintro rfl
    exact Role.not_fits_eof h
  have hliteral : literal? kind w = none := by
    unfold literal?
    split <;> first | contradiction | rfl
  rw [hliteral]
  refine .plain w line ?_
  simp only [Kind.silent, decide_eq_true_eq, List.mem_cons, List.not_mem_nil, or_false,
    not_or] at hsilent ⊢
  exact ⟨hnumber, hstring, hsilent.1, hsilent.2.1, hsilent.2.2, heof⟩

/-- **The tokens and errors of the pieces of a text are what those yield.** -/
theorem yields_pieces (line : Nat) (cs : List Char) :
    Yields (pieces cs) ((lined line (pieces cs)).filterMap token?)
      ((lined line (pieces cs)).filterMap error?) := by
  fun_induction pieces cs generalizing line with
  | case1 => exact .nil
  | case2 c cs ih =>
    have tail := ih ((first c cs).endLine line)
    rw [lined]
    rcases first_wins_or_stray c cs with hwins | ⟨hstray, -⟩
    · cases hfirst : first c cs with
      | mk role w =>
      rw [hfirst] at hwins tail
      cases role with
      | matched kind =>
        rcases token?_matched hwins.fits (endLine line ⟨.matched kind, w⟩) with
          ⟨hsilent, hnone⟩ | ⟨t, hsome, hemits⟩
        · rw [List.filterMap_cons_none hnone, List.filterMap_cons_none rfl]
          exact .silent hsilent tail
        · rw [List.filterMap_cons_some hsome, List.filterMap_cons_none rfl]
          exact .token hemits tail
      | unclosed =>
        rw [drop_lead_of_unclosed (by rw [hfirst]), pieces]
        exact .unclosed w _
      | stray d => exact absurd hwins.fits Role.not_fits_stray
    · rw [hstray] at tail ⊢
      exact .stray _ tail

end Piece

/-- The tokens of a source end at the end of the input, which is not before. -/
theorem tokens_scan (source : String) :
    ∃ ts line, (scan source).tokens = ts ++ [Token.eof line] ∧ ∀ t ∈ ts, t.kind ≠ .eof :=
  ⟨_, _, rfl, (Piece.yields_pieces 1 source.toList).kind_ne_eof⟩

/-- **Scanning is by longest match and loses nothing.**  A source has exactly one
segmentation, into non-empty pieces that make it up.  The scanned tokens are those of
its pieces, closed by one that marks the end of the input and is the only one to do
so; the errors are those of its pieces.  A string that is still open can only be the
last piece. -/
theorem scan_by_longest_match (source : String) :
    ∃ ps : List Piece, (∀ qs, Segmentation source.toList qs ↔ qs = ps) ∧
      ps.flatMap Piece.text = source.toList ∧ (∀ p ∈ ps, p.text ≠ []) ∧
      (∀ p ∈ ps.dropLast, p.role ≠ .unclosed) ∧
      ∃ (ts : List Token) (line : Nat),
        (scan source).tokens = ts ++ [⟨.eof, "", none, line⟩] ∧ (∀ t ∈ ts, t.kind ≠ .eof) ∧
        Yields ps ts (scan source).errors := by
  have hyields := Piece.yields_pieces 1 source.toList
  exact ⟨Piece.pieces source.toList, fun qs => Piece.segmentation_iff,
    Piece.flatMap_text_pieces source.toList, fun p => Piece.text_ne_nil_of_mem_pieces,
    hyields.role_ne_unclosed, _, _, rfl, hyields.kind_ne_eof, hyields⟩

end LoxLang
