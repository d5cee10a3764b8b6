import LoxLang.Scan
import LoxLang.Proofs.PieceEnds
import LoxLang.Proofs.SourceLines
import LoxLang.Proofs.Relining

/-! # Scanning across a line break

No piece of a source goes on over a line break, but for a string.  So when no string
is still open there, a source falls apart at the line break: its pieces are those
before, the line break itself and those behind (`Piece.pieces_append_newline`).  The
tokens and errors are then those of the two parts, the later ones moved down by the
line breaks before them (`scan_join`).
-/
namespace LoxLang

namespace Piece

variable {c : Char}

/-! ### What stops at a line break -/

/-- **A piece that does not stay open ends before a line break.** -/
theorem lead_append_newline {cs : List Char} (h : (lead c cs).1 ≠ .unclosed) (ds : List Char) :
    lead c (cs ++ '\n' :: ds) = lead c cs := by
  refine lead_append ?_
  intro d hd
  cases hd
  exact Role.endsBefore_newline h

/-- **The pieces on both sides of a line break.**  Where no string is still open, they
are those of the two texts, with the line break between them. -/
theorem pieces_append_newline {cs : List Char} (h : ∀ p ∈ pieces cs, p.role ≠ .unclosed)
    (ds : List Char) :
    pieces (cs ++ '\n' :: ds) = pieces cs ++ ⟨.matched .newline, ['\n']⟩ :: pieces ds := by
  fun_induction pieces cs with
  | case1 =>
    rw [List.nil_append, List.nil_append, pieces, first, lead_newline]
    rfl
  | case2 c cs ih =>
    obtain ⟨hfirst, hrest⟩ := List.forall_mem_cons.mp h
    have hlead := lead_append_newline hfirst ds
    have hle := lead_le_length c cs
    rw [List.cons_append, pieces, first, hlead, List.take_append_of_le_length hle,
      List.drop_append_of_le_length hle, ih hrest]
    rfl

/-! ### Pieces further down -/

theorem endLine_add (k line : Nat) (p : Piece) : p.endLine (line + k) = p.endLine line + k := by
  unfold endLine
  split
  · exact Nat.add_right_comm line k 1
  · exact Nat.add_right_comm line k _
  · exact Nat.add_right_comm line k _
  · rfl

theorem lined_add (k line : Nat) (ps : List Piece) :
    lined (line + k) ps = (lined line ps).map fun q => (q.1 + k, q.2) := by
  induction ps generalizing line with
  | nil => rfl
  | cons p ps ih => rw [lined, lined, List.map_cons, ← ih, endLine_add]

theorem map_snd_lined (line : Nat) (ps : List Piece) : (lined line ps).map Prod.snd = ps := by
  induction ps generalizing line with
  | nil => rfl
  | cons p ps ih => rw [lined, List.map_cons, ih]

theorem token?_reline (f : Nat → Nat) (q : Nat × Piece) :
    token? (f q.1, q.2) = (token? q).map (Token.reline f) := by
  obtain ⟨line, role, text⟩ := q
  cases role with
  | matched kind =>
    simp only [token?]
    split <;> rfl
  | unclosed | stray => rfl

theorem error?_reline (f : Nat → Nat) (q : Nat × Piece) :
    error? (f q.1, q.2) = (error? q).map (SyntaxError.reline f) := by
  obtain ⟨line, role, text⟩ := q
  cases role <;> rfl

end Piece

/-- The pieces of two texts and of the line break between them, each with its line. -/
theorem Piece.lined_join {cs : List Char} (h : ∀ p ∈ pieces cs, p.role ≠ .unclosed)
    (ds : List Char) :
    lined 1 (pieces (cs ++ '\n' :: ds)) =
      lined 1 (pieces cs) ++ (cs.count '\n' + 2, ⟨.matched .newline, ['\n']⟩) ::
        (lined 1 (pieces ds)).map fun q => (q.1 + (cs.count '\n' + 1), q.2) := by
  have hline : endLine (1 + cs.count '\n') ⟨.matched .newline, ['\n']⟩ =
      1 + (cs.count '\n' + 1) := Nat.add_assoc _ _ _
  rw [pieces_append_newline h, lined_append, lastLine_pieces, lined, hline, lined_add,
    Nat.add_comm 1]

/-- A string that is still open is reported. -/
theorem role_ne_unclosed_of_errors {source : String}
    (h : ∀ line, .unclosedString line ∉ (scan source).errors) :
    ∀ p ∈ Piece.pieces source.toList, p.role ≠ .unclosed := by
  intro p hp hrole
  rw [← Piece.map_snd_lined 1 (Piece.pieces source.toList)] at hp
  obtain ⟨⟨line, role, text⟩, hmem, rfl⟩ := List.mem_map.mp hp
  obtain rfl : role = .unclosed := hrole
  exact h line (List.mem_filterMap.mpr ⟨_, hmem, rfl⟩)

/-- How many lines further down a text begins that is put below a source. -/
def linesOf (source : String) : Nat := source.toList.count '\n' + 1

/-- **Scanning across a line break.**  Where no string is still open at the end of
`a`, a text behind a line break is scanned as if by itself, and moved down by the line
breaks before it. -/
theorem scan_join {a : String} (hopen : ∀ line, .unclosedString line ∉ (scan a).errors)
    (b : String) :
    (scan (a ++ "\n" ++ b)).tokens = (scan a).tokens.dropLast ++
        (scan b).tokens.map (Token.reline (· + linesOf a)) ∧
      (scan (a ++ "\n" ++ b)).errors = (scan a).errors ++
        (scan b).errors.map (SyntaxError.reline (· + linesOf a)) := by
  have h := role_ne_unclosed_of_errors hopen
  have hsource : (a ++ "\n" ++ b).toList = a.toList ++ '\n' :: b.toList := by simp
  unfold scan Scan.ofChars linesOf
  simp only [hsource, Piece.lined_join h, Piece.lastLine_pieces, List.filterMap_append]
  constructor
  · -- the line break gives no token, and the end of the input moves with the rest
    have hcount : 1 + (a.toList ++ '\n' :: b.toList).count '\n' =
        1 + b.toList.count '\n' + (a.toList.count '\n' + 1) := by
      rw [List.count_append, List.count_cons_self]
      omega
    rw [List.filterMap_cons_none rfl, List.dropLast_concat, hcount]
    simp [← Piece.token?_reline, List.map_filterMap, Token.eof, Token.reline]
  · rw [List.filterMap_cons_none rfl]
    simp [← Piece.error?_reline, List.map_filterMap]

/-- **A source falls apart at a line break exactly where no string is open.**  The tokens
are then those of `a` without the end of the input and those of `b`, moved down by the
line breaks before `b`, and the errors are those of `a` and those of `b`, likewise
moved.  If a string is still open at the end of `a`, that is never so, since it is
reported further down or closed in `b`. -/
theorem scan_splits_at_newline_iff (a b : String) :
    (∀ line, .unclosedString line ∉ (scan a).errors) ↔
      (scan (a ++ "\n" ++ b)).tokens = Program.beforeEnd (scan a).tokens ++
          (scan b).tokens.map (Token.reline (· + linesOf a)) ∧
        (scan (a ++ "\n" ++ b)).errors = (scan a).errors ++
          (scan b).errors.map (SyntaxError.reline (· + linesOf a)) := by
  constructor
  · intro hopen
    rw [beforeEnd_tokens]
    exact scan_join hopen b
  · rintro ⟨-, herrors⟩ line hline
    have hjoined : .unclosedString line ∈ (scan (a ++ "\n" ++ b)).errors := by
      rw [herrors]
      exact List.mem_append_left _ hline
    -- it would stand on the last line of `a` and on the last line of the whole
    have hbefore := line_of_unclosedString hline
    have hafter := line_of_unclosedString hjoined
    have hsource : (a ++ "\n" ++ b).toList = a.toList ++ '\n' :: b.toList := by simp
    rw [hsource, lineAfter, List.count_append, List.count_cons_self] at hafter
    rw [lineAfter] at hbefore
    omega

end LoxLang
