import LoxLang.Proofs.LongestMatch

/-! # Where a piece ends

A piece ends where the next character does not go on with it.  Which characters those
are depends on its role alone (`Role.EndsBefore`): a comment ends before a line break,
blanks end before anything else, and all other pieces end at least before characters
that belong to no word, number or mark of two characters.  A string that is still open
ends only where the text does.

Behind such an end the text can be exchanged and the piece stays the same
(`Piece.lead_append`).  In particular it stays when nothing is left behind it
(`Piece.lead_take`), and a text of a role is a single piece by itself
(`Piece.pieces_of_lexeme`).
-/
namespace LoxLang

/-- A piece of this role ends before the character `d`, whatever its text is. -/
def Role.EndsBefore (r : Role) (d : Char) : Prop :=
  match r with
  | .unclosed => False
  | .matched .comment => d = '\n'
  | .matched .blank => Piece.isBlank d = false
  | _ => Piece.continuesWord d = false ∧ d ≠ '.' ∧ d ≠ '/' ∧ d ≠ '='

/-- Tokens end before what belongs to no word, number or mark of two characters. -/
theorem Role.endsBefore_iff_of_not_silent {kind : Kind} (h : kind.silent = false) {d : Char} :
    (matched kind).EndsBefore d ↔
      Piece.continuesWord d = false ∧ d ≠ '.' ∧ d ≠ '/' ∧ d ≠ '=' := by
  cases kind <;> first | exact Iff.rfl | cases h

theorem Role.endsBefore_newline {r : Role} (h : r ≠ .unclosed) : r.EndsBefore '\n' := by
  unfold EndsBefore
  split
  · exact absurd rfl h
  · rfl
  · rfl
  · decide

theorem Kind.silent_ofWord (word : String) : (ofWord word).silent = false := by
  have hall : ∀ e ∈ keywords, e.2.silent = false := by decide
  rcases ofWord_cases word with h | h
  · rw [h]
    rfl
  · exact hall _ h

theorem Kind.silent_of_mark {c : Char} {kind : Kind} (h : ofMark? c = some kind) :
    kind.silent = false := by
  unfold ofMark? at h
  split at h <;> cases h <;> rfl

namespace Piece

variable {c : Char} {cs ds : List Char} {p : Char → Bool}

/-! ### What a run and a number do not go on with -/

theorem run_append_of_stop (h : ∀ d ∈ ds.head?, p d = false) : run p (cs ++ ds) = run p cs := by
  have hstop : ds.takeWhile p = [] := by
    cases ds with
    | nil => rfl
    | cons d ds => exact List.takeWhile_cons_of_neg (by simp [h d rfl])
  unfold run
  rw [List.takeWhile_append]
  split
  · rename_i hall
    rw [hstop, List.append_nil, hall]
  · rfl

/-- A run that is stopped does not see what comes later. -/
theorem run_append_of_lt (h : run p cs < cs.length) (ds : List Char) :
    run p (cs ++ ds) = run p cs := by
  unfold run at h ⊢
  rw [List.takeWhile_append, if_neg (Nat.ne_of_lt h)]

theorem numberTail_append_of_stop (hdigit : ∀ d ∈ ds.head?, d.isDigit = false)
    (hpoint : ∀ d ∈ ds.head?, d ≠ '.') : numberTail (cs ++ ds) = numberTail cs := by
  have hle := run_le_length Char.isDigit cs
  unfold numberTail
  simp only [run_append_of_stop hdigit, List.drop_append_of_le_length hle]
  generalize cs.drop (run Char.isDigit cs) = behind
  cases behind with
  | nil =>
    cases ds with
    | nil => rfl
    | cons d ds => simp [hpoint d rfl]
  | cons c behind =>
    by_cases hc : c = '.'
    · subst hc
      cases behind with
      | nil =>
        -- a point needs a digit behind it
        cases ds with
        | nil => rfl
        | cons d ds => simp [hdigit d rfl]
      | cons d more => simp only [List.cons_append, run_append_of_stop hdigit]
    · simp [hc]

/-! ### The first piece before another text -/

/-- A character that starts no string, word, number or run of blanks, and no line
break. -/
structure StartsMark (c : Char) : Prop where
  quote : c ≠ '"'
  newline : c ≠ '\n'
  blank : ¬ isBlank c = true
  digit : ¬ c.isDigit = true
  word : ¬ startsWord c = true

/-- Marks and stray characters look one character ahead. -/
theorem StartsMark.lead_congr (hc : StartsMark c) (hcs : ¬ (c = '/' ∧ cs.head? = some '/'))
    (hds : ¬ (c = '/' ∧ ds.head? = some '/')) (h : cs.head? = some '=' ↔ ds.head? = some '=') :
    lead c cs = lead c ds := by
  unfold lead
  rw [if_neg hc.quote, if_neg hc.quote, if_neg hcs, if_neg hds, if_neg hc.newline,
    if_neg hc.newline, if_neg hc.blank, if_neg hc.blank, if_neg hc.digit, if_neg hc.digit,
    if_neg hc.word, if_neg hc.word]
  cases Kind.ofMarkEqual? c with
  | none => rfl
  | some kind =>
    by_cases hcs' : cs.head? = some '='
    · rw [hcs', h.mp hcs']
    · have hds' : ¬ ds.head? = some '=' := fun hds' => hcs' (h.mpr hds')
      simp [hcs', hds']

/-- With nothing behind it, such a character is a mark or stray. -/
theorem StartsMark.lead_nil (hc : StartsMark c) :
    (∃ kind, Kind.ofMark? c = some kind ∧ lead c [] = (.matched kind, 0)) ∨
      lead c [] = (.stray c, 0) := by
  unfold lead
  rw [if_neg hc.quote, if_neg (by simp), if_neg hc.newline, if_neg hc.blank, if_neg hc.digit,
    if_neg hc.word]
  cases hmark : Kind.ofMark? c with
  | none =>
    right
    cases Kind.ofMarkEqual? c <;> rfl
  | some kind =>
    left
    refine ⟨kind, rfl, ?_⟩
    cases Kind.ofMarkEqual? c <;> rfl

theorem StartsMark.ne_of_endsBefore (hc : StartsMark c) {d : Char}
    (h : (lead c []).1.EndsBefore d) : d ≠ '/' ∧ d ≠ '=' := by
  rcases hc.lead_nil with ⟨kind, hkind, hlead⟩ | hstray
  · rw [hlead] at h
    exact ((Role.endsBefore_iff_of_not_silent (Kind.silent_of_mark hkind)).mp h).2.2
  · rw [hstray] at h
    exact h.2.2

theorem isDigit_eq_false_of_continuesWord {d : Char} (h : continuesWord d = false) :
    d.isDigit = false := by
  simp only [continuesWord, Char.isAlphanum, Bool.or_eq_false_iff] at h
  exact h.1.2

/-- **What does not go on with the first piece does not change it.** -/
theorem lead_append (h : ∀ d ∈ ds.head?, (lead c cs).1.EndsBefore d) :
    lead c (cs ++ ds) = lead c cs := by
  by_cases hquote : c = '"'
  · subst hquote
    by_cases hlt : run (· != '"') cs < cs.length
    · rw [lead_quote, lead_quote, run_append_of_lt hlt, if_pos hlt, if_pos]
      rw [List.length_append]
      omega
    · -- an open string has nothing behind it
      cases ds with
      | nil => rw [List.append_nil]
      | cons d ds =>
        have hd := h d rfl
        rw [lead_quote, if_neg hlt] at hd
        exact absurd hd not_false
  by_cases hslash : c = '/' ∧ cs.head? = some '/'
  · obtain ⟨rfl, hhead⟩ := hslash
    obtain ⟨more, rfl⟩ := List.head?_eq_some_iff.mp hhead
    rw [lead_comment] at h
    have hstop : ∀ d ∈ ds.head?, (d != '\n') = false := by
      intro d hd
      have heq : d = '\n' := h d hd
      simp [heq]
    rw [List.cons_append, lead_comment, lead_comment, run_append_of_stop hstop]
  by_cases hnewline : c = '\n'
  · subst hnewline
    rw [lead_newline, lead_newline]
  by_cases hblank : isBlank c = true
  · rw [lead_blank hblank] at h ⊢
    rw [lead_blank hblank, run_append_of_stop h]
  by_cases hdigit : c.isDigit = true
  · rw [lead_digit hdigit] at h ⊢
    rw [lead_digit hdigit, numberTail_append_of_stop
      (fun d hd => isDigit_eq_false_of_continuesWord (h d hd).1) fun d hd => (h d hd).2.1]
  by_cases hword : startsWord c = true
  · rw [lead_word hword] at h ⊢
    have hstop : ∀ d ∈ ds.head?, continuesWord d = false := by
      intro d hd
      exact ((Role.endsBefore_iff_of_not_silent (Kind.silent_ofWord _)).mp (h d hd)).1
    rw [lead_word hword, run_append_of_stop hstop,
      List.take_append_of_le_length (run_le_length continuesWord cs)]
  -- only marks and stray characters are left
  have hc : StartsMark c := ⟨hquote, hnewline, hblank, hdigit, hword⟩
  cases cs with
  | cons d cs => exact hc.lead_congr hslash hslash Iff.rfl
  | nil =>
    have hstop (x : Char) (hx : ∀ d ∈ ds.head?, d ≠ x) : ds.head? ≠ some x :=
      fun hd => hx x hd rfl
    have hslash' := hstop '/' fun d hd => (hc.ne_of_endsBefore (h d hd)).1
    have hequal' := hstop '=' fun d hd => (hc.ne_of_endsBefore (h d hd)).2
    exact hc.lead_congr (fun hds => hslash' hds.2) hslash (by simp [hequal'])

/-! ### The first piece by itself -/

/-- **A piece by itself is the same piece.** -/
theorem lead_take (c : Char) (cs : List Char) : lead c (cs.take (lead c cs).2) = lead c cs := by
  rcases first_wins_or_stray c cs with hwins | ⟨hstray, hnone⟩
  · have hself : (first c cs).role.Wins (first c cs).text (first c cs).text := by
      refine ⟨List.prefix_rfl, hwins.fits, ?_, hwins.spelled⟩
      intro r v hv hfits
      exact hwins.longest r v (hv.trans hwins.start) hfits
    have hfirst : first c cs = first c (cs.take (lead c cs).2) := eq_first_of_wins hself
    have hlength := congrArg (List.length ∘ text) hfirst
    simp only [Function.comp_apply, length_text_first] at hlength
    exact Prod.ext (congrArg role hfirst).symm (by omega)
  · have hlead : lead c cs = (.stray c, 0) := by
      have hlength := length_text_first c cs
      rw [hstray, List.length_singleton] at hlength
      exact Prod.ext (congrArg role hstray) (by omega)
    rw [hlead, List.take_zero]
    rcases lead_lexeme c [] with hlone | hlexeme
    · exact hlone
    · refine absurd (Role.fits_iff_lexeme.mpr hlexeme) (hnone _ _ ?_)
      rw [List.take_nil]
      exact ⟨cs, rfl⟩

/-- **A text of a role is a single piece.** -/
theorem pieces_of_lexeme {r : Role} {w : List Char} (h : Lexeme r (c :: w)) :
    pieces (c :: w) = [⟨(lead c w).1, c :: w⟩] := by
  have hall : (lead c w).2 = w.length := by
    have hle := lead_le_length c w
    rcases lead_outdoes h List.prefix_rfl with hlonger | ⟨hsame, -⟩
    · rw [List.length_cons] at hlonger
      omega
    · rw [List.length_cons] at hsame
      omega
  rw [pieces, first, hall, List.take_length, List.drop_length, pieces]

end Piece
end LoxLang
