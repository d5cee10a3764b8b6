import LoxLang.Proofs.LineBreak
import LoxLang.Proofs.SourceLines
import LoxLang.Proofs.UpToLines

/-! # Tokens set apart by blanks

The lexemes of a source, set apart by single blanks, are a source in its own right.  It
has no faults, and its tokens are the same again but for their lines
(`rescan_joined_lexemes`).  So what scanning leaves out of a source (comments, line
breaks, stray characters, a string that stays open) and the blanks it is indifferent to
can be brought to one form.

A token is a piece by itself (`Piece.Lone`).  No token goes on over a blank, and blanks
do not go on over a token, so the pieces of the lexemes set apart are the tokens with
blanks between them (`Piece.pieces_intercalate`).
-/
namespace LoxLang

/-- A token ends before a blank. -/
theorem Role.endsBefore_space {r : Role} (h : r.isToken = true) : r.EndsBefore ' ' := by
  cases r with
  | unclosed | stray => cases h
  | matched kind =>
    have hsilent : kind.silent = false := by simpa [isToken] using h
    rw [endsBefore_iff_of_not_silent hsilent]
    decide

namespace Piece

/-- A token that is a piece by itself. -/
structure Lone (p : Piece) : Prop where
  /-- It is a token. -/
  isToken : p.role.isToken = true
  /-- Scanning takes its whole text and finds its role. -/
  lead : ∃ c w, p.text = c :: w ∧ lead c w = (p.role, w.length)

/-- The blank between two tokens. -/
def space : Piece := ⟨.matched .blank, [' ']⟩

variable {p : Piece} {cs ds : List Char}

/-- **Every token of a source is a piece by itself.** -/
theorem lone_of_mem_pieces (h : p ∈ pieces cs) (htoken : p.role.isToken = true) : p.Lone := by
  fun_induction pieces cs with
  | case1 => cases h
  | case2 c cs ih =>
    rcases List.mem_cons.mp h with rfl | h
    · refine ⟨htoken, c, cs.take (Piece.lead c cs).2, rfl, ?_⟩
      rw [lead_take, List.length_take, Nat.min_eq_left (lead_le_length c cs)]
      rfl
    · exact ih h

/-! ### Tokens and blanks next to each other -/

theorem Lone.pieces_append (h : p.Lone) (hds : ∀ d ∈ ds.head?, d = ' ') :
    pieces (p.text ++ ds) = p :: pieces ds := by
  obtain ⟨htoken, c, w, htext, hlead⟩ := h
  have happend : Piece.lead c (w ++ ds) = (p.role, w.length) := by
    rw [lead_append, hlead]
    intro d hd
    rw [hds d hd, hlead]
    exact Role.endsBefore_space htoken
  have hp : (⟨p.role, c :: w⟩ : Piece) = p := by rw [← htext]
  rw [htext, List.cons_append, pieces, first, happend, List.take_left, List.drop_left, hp]

/-- A token does not begin with a blank, nor does what begins with a token. -/
theorem Lone.isBlank_head (h : p.Lone) (ts : List (List Char)) :
    ∀ d ∈ ([' '].intercalate (p.text :: ts)).head?, isBlank d = false := by
  obtain ⟨htoken, c, w, htext, hlead⟩ := h
  have hhead : ([' '].intercalate (p.text :: ts)).head? = some c := by
    rw [htext]
    cases ts with
    | nil => rw [List.intercalate_singleton, List.head?_cons]
    | cons t ts => rw [List.intercalate_cons_cons]; rfl
  intro d hd
  obtain rfl : c = d := Option.some.inj (hhead.symm.trans hd)
  rw [Bool.eq_false_iff]
  intro hblank
  rw [lead_blank hblank] at hlead
  rw [← (Prod.mk.inj hlead).1] at htoken
  cases htoken

theorem pieces_space (h : ∀ d ∈ ds.head?, isBlank d = false) :
    pieces (' ' :: ds) = space :: pieces ds := by
  have hrun : run isBlank ds = 0 := by
    cases ds with
    | nil => rfl
    | cons d ds => simp [run, h d rfl]
  rw [pieces, first, lead_blank rfl, hrun]
  rfl

/-- **Lexemes set apart by blanks** are cut into the tokens and the blanks. -/
theorem pieces_intercalate {ps : List Piece} (h : ∀ p ∈ ps, p.Lone) :
    pieces ([' '].intercalate (ps.map text)) = ps.intersperse space := by
  induction ps with
  | nil => rw [List.map_nil, List.intercalate_nil, pieces, List.intersperse_nil]
  | cons p ps ih =>
    obtain ⟨hp, hps⟩ := List.forall_mem_cons.mp h
    cases ps with
    | nil =>
      have hlone : pieces (p.text ++ []) = p :: pieces [] := hp.pieces_append (by simp)
      rw [List.append_nil, pieces] at hlone
      simpa using hlone
    | cons q ps =>
      have hq := (List.forall_mem_cons.mp hps).1
      rw [List.map_cons, List.map_cons, List.intercalate_cons_cons, List.append_assoc,
        List.singleton_append, hp.pieces_append (by simp), pieces_space (hq.isBlank_head _),
        ← List.map_cons, ih hps, List.intersperse_cons_cons]

end Piece

/-! ### Scanning again -/

theorem filterMap_intersperse {α β : Type} {f : α → Option β} {x : α} (hx : f x = none)
    (xs : List α) : (xs.intersperse x).filterMap f = xs.filterMap f := by
  induction xs with
  | nil => rfl
  | cons y ys ih =>
    cases ys with
    | nil => rfl
    | cons z zs =>
      rw [List.intersperse_cons_cons, List.filterMap_cons, List.filterMap_cons_none hx, ih,
        ← List.filterMap_cons]

namespace Piece

theorem filterMap_lined {β : Type} (f : Piece → Option β) (line : Nat) (ps : List Piece) :
    ((lined line ps).filterMap fun q => f q.2) = ps.filterMap f := by
  conv_rhs => rw [← map_snd_lined line ps, List.filterMap_map]
  rfl

/-- The lexeme of a piece, if it is a token. -/
def lexeme? (p : Piece) : Option String :=
  if p.role.isToken then some (String.ofList p.text) else none

theorem map_lexeme_token? (q : Nat × Piece) : (token? q).map Token.lexeme = lexeme? q.2 := by
  obtain ⟨line, role, w⟩ := q
  cases role with
  | unclosed | stray => rfl
  | matched kind =>
    rw [token?, lexeme?, Role.isToken]
    cases kind.silent <;> rfl

theorem filterMap_lexeme? (ps : List Piece) :
    ps.filterMap lexeme? = (ps.filter (·.role.isToken)).map (String.ofList ∘ text) := by
  rw [← List.filterMap_eq_map, List.filterMap_filter]
  rfl

theorem token?_eq_none (h : p.role.isToken = false) (line : Nat) : token? (line, p) = none := by
  have hlexeme := map_lexeme_token? (line, p)
  rw [lexeme?, h] at hlexeme
  exact Option.map_eq_none_iff.mp hlexeme

theorem error?_eq_none (h : p.role.isToken = true) (line : Nat) : error? (line, p) = none := by
  obtain ⟨role, w⟩ := p
  cases role with
  | unclosed | stray => cases h
  | matched => rfl

end Piece

/-- The tokens of a source, moved to line 0, are those of its pieces there. -/
theorem map_unlined_tokens (source : String) :
    (scan source).tokens.map (Token.reline unlined) =
      ((Piece.pieces source.toList).filterMap fun p => Piece.token? (0, p)) ++ [Token.eof 0] := by
  have hmove : (fun q => (Piece.token? q).map (Token.reline unlined)) =
      fun q => Piece.token? (0, q.2) :=
    funext fun q => (Piece.token?_reline unlined q).symm
  rw [scan, Scan.ofChars, List.map_append, List.map_filterMap, hmove,
    Piece.filterMap_lined fun p => Piece.token? (0, p)]
  rfl

theorem map_unlined_errors (source : String) :
    (scan source).errors.map (SyntaxError.reline unlined) =
      (Piece.pieces source.toList).filterMap fun p => Piece.error? (0, p) := by
  have hmove : (fun q => (Piece.error? q).map (SyntaxError.reline unlined)) =
      fun q => Piece.error? (0, q.2) :=
    funext fun q => (Piece.error?_reline unlined q).symm
  rw [scan, Scan.ofChars, List.map_filterMap, hmove,
    Piece.filterMap_lined fun p => Piece.error? (0, p)]

/-! ### The lexemes of a source set apart -/

/-- The pieces of a source that are tokens. -/
def tokenPieces (source : String) : List Piece :=
  (Piece.pieces source.toList).filter (·.role.isToken)

/-- The lexemes before the end of the input, set apart by single blanks. -/
def joinedLexemes (source : String) : String :=
  " ".intercalate ((Program.beforeEnd (scan source).tokens).map Token.lexeme)

/-- Those lexemes are the texts of the pieces that are tokens. -/
theorem map_lexeme_beforeEnd (source : String) :
    (Program.beforeEnd (scan source).tokens).map Token.lexeme =
      (tokenPieces source).map (String.ofList ∘ Piece.text) := by
  have hbefore : Program.beforeEnd (scan source).tokens =
      (Piece.lined 1 (Piece.pieces source.toList)).filterMap Piece.token? := by
    rw [beforeEnd_tokens]
    exact List.dropLast_concat
  rw [hbefore, List.map_filterMap, funext Piece.map_lexeme_token?, Piece.filterMap_lined,
    Piece.filterMap_lexeme?, tokenPieces]

theorem pieces_joinedLexemes (source : String) :
    Piece.pieces (joinedLexemes source).toList =
      (tokenPieces source).intersperse Piece.space := by
  have htexts : String.toList ∘ (String.ofList ∘ Piece.text) = Piece.text :=
    funext fun _ => String.toList_ofList
  rw [joinedLexemes, map_lexeme_beforeEnd, String.toList_intercalate, List.map_map, htexts]
  apply Piece.pieces_intercalate
  intro q hq
  obtain ⟨hq, htoken⟩ := List.mem_filter.mp hq
  exact Piece.lone_of_mem_pieces hq htoken

/-- The pieces that are no tokens leave none behind. -/
theorem filterMap_tokenPieces (source : String) :
    ((tokenPieces source).filterMap fun p => Piece.token? (0, p)) =
      (Piece.pieces source.toList).filterMap fun p => Piece.token? (0, p) := by
  rw [tokenPieces, List.filterMap_filter]
  congr 1
  funext p
  cases htoken : p.role.isToken with
  | true => rfl
  | false => exact (Piece.token?_eq_none htoken 0).symm

/-- **Scanning the lexemes again gives the same tokens.**  The lexemes of any source,
faulty or not, set apart by single blanks, are a source without faults, and it has the
tokens of the first one, but for their lines. -/
theorem rescan_joined_lexemes (source : String) :
    (scan (joinedLexemes source)).errors = [] ∧
      List.Forall₂ Token.Agrees (scan (joinedLexemes source)).tokens (scan source).tokens := by
  have hpieces := pieces_joinedLexemes source
  constructor
  · have herrors := map_unlined_errors (joinedLexemes source)
    rw [hpieces, filterMap_intersperse rfl] at herrors
    have hnone : ((tokenPieces source).filterMap fun q => Piece.error? (0, q)) = [] := by
      rw [List.filterMap_eq_nil_iff]
      intro q hq
      exact Piece.error?_eq_none (List.mem_filter.mp hq).2 0
    rw [hnone] at herrors
    exact List.map_eq_nil_iff.mp herrors
  · have hagrees : ∀ t u : Token, t.Agrees u ↔ t.reline unlined = u.reline unlined :=
      fun _ _ => Token.agrees_iff
    rw [forall₂_iff_map_eq hagrees, map_unlined_tokens, map_unlined_tokens, hpieces,
      filterMap_intersperse rfl, filterMap_tokenPieces]

end LoxLang
