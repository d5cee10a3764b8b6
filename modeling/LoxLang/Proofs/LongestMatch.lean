import LoxLang.Proofs.Lexicon
import Mathlib.Data.List.TakeWhile

/-! # The longest match

The lexicon says which texts are of which role.  Of all starts of a text that are of
any role at all the longest wins; of two roles for the same text the one that has no
other spelling does, so a keyword is no identifier.

`Piece.lead` does not compare: it decides by the first character and runs ahead from
it.  Three things make that the same.  Every text of a role that starts here is no
longer than what `lead` takes (`lead_outdoes`, by the shape of the text); what `lead`
takes is a text of its role or a stray character (`lead_lexeme`, by the branches of
`lead`); and a text that is as long is of the same role, but for identifiers that are
keywords.
-/
namespace LoxLang

/-- Among all starts of `cs` that are of some role, `w` is the longest, and `r` is
its role. -/
structure Role.Wins (r : Role) (w cs : List Char) : Prop where
  /-- The text stands at the start. -/
  start : w <+: cs
  /-- It is of the role. -/
  fits : r.Fits w
  /-- No start that is of any role is longer. -/
  longest : ∀ (r' : Role) (v : List Char), v <+: cs → r'.Fits v → v.length ≤ w.length
  /-- No role has the text as its one spelling, unless it is this one. -/
  spelled : ∀ r' : Role, r'.Spells w → r' = r

namespace Piece

variable {c : Char} {cs w : List Char} {p : Char → Bool}

/-! ### Runs of characters -/

theorem run_append (hw : ∀ d ∈ w, p d = true) : run p (w ++ cs) = w.length + run p cs := by
  rw [run, List.takeWhile_append_of_pos hw, List.length_append, run]

theorem run_le_length (p : Char → Bool) (cs : List Char) : run p cs ≤ cs.length :=
  (List.takeWhile_prefix p).length_le

theorem length_le_run (h : w <+: cs) (hw : ∀ d ∈ w, p d = true) : w.length ≤ run p cs := by
  obtain ⟨t, rfl⟩ := h
  rw [run_append hw]
  exact Nat.le_add_right ..

theorem take_run (p : Char → Bool) (cs : List Char) : cs.take (run p cs) = cs.takeWhile p :=
  (List.prefix_iff_eq_take.mp (List.takeWhile_prefix p)).symm

theorem of_mem_take_run {d : Char} (h : d ∈ cs.take (run p cs)) : p d = true := by
  rw [take_run] at h
  exact List.mem_takeWhile_imp h

/-- A run that does not reach the end is stopped by a character. -/
theorem exists_of_run_lt (h : run p cs < cs.length) :
    ∃ x, cs.take (run p cs + 1) = cs.take (run p cs) ++ [x] ∧ p x = false := by
  have hsplit : cs.takeWhile p ++ cs.dropWhile p = cs := List.takeWhile_append_dropWhile
  cases hrest : cs.dropWhile p with
  | nil =>
    rw [hrest, List.append_nil] at hsplit
    rw [run, hsplit] at h
    exact absurd h (Nat.lt_irrefl _)
  | cons x rest =>
    have hx : p x = false := by
      have hhead := List.head_dropWhile_not p (l := cs) (by simp [hrest])
      simpa [hrest] using hhead
    have hcs : cs.takeWhile p ++ x :: rest = cs := by rw [← hrest, hsplit]
    refine ⟨x, ?_, hx⟩
    calc cs.take (run p cs + 1)
        = (cs.takeWhile p ++ x :: rest).take ((cs.takeWhile p).length + 1) := by rw [hcs, run]
      _ = cs.takeWhile p ++ [x] := List.take_length_add_append 1
      _ = cs.take (run p cs) ++ [x] := by rw [take_run]

/-! ### The tail of a number -/

theorem run_le_numberTail (cs : List Char) : run Char.isDigit cs ≤ numberTail cs := by
  unfold numberTail
  dsimp only
  split
  · split <;> omega
  · exact Nat.le_refl _

theorem numberTail_le_length (cs : List Char) : numberTail cs ≤ cs.length := by
  have hwhole := run_le_length Char.isDigit cs
  unfold numberTail
  dsimp only
  split
  case h_2 => exact hwhole
  case h_1 d more hrest =>
    have hmore := run_le_length Char.isDigit more
    have hlength := congrArg List.length hrest
    rw [List.length_drop, List.length_cons, List.length_cons] at hlength
    split <;> omega

theorem numberTail_fraction {d : Char} {v : List Char} (hw : ∀ e ∈ w, e.isDigit = true)
    (hd : d.isDigit = true) (hv : ∀ e ∈ v, e.isDigit = true) (cs : List Char) :
    w.length + 2 + v.length ≤ numberTail (w ++ '.' :: d :: (v ++ cs)) := by
  have hwhole : run Char.isDigit (w ++ '.' :: d :: (v ++ cs)) = w.length := by
    rw [run_append hw]
    rfl
  unfold numberTail
  simp only [hwhole, List.drop_left, hd, if_true, run_append hv]
  omega

/-- The tail of a number is a run of digits, or two of them around a point. -/
theorem take_numberTail (cs : List Char) :
    (∀ e ∈ cs.take (numberTail cs), e.isDigit = true) ∨
      ∃ w d v, cs.take (numberTail cs) = w ++ '.' :: d :: v ∧ (∀ e ∈ w, e.isDigit = true) ∧
        d.isDigit = true ∧ ∀ e ∈ v, e.isDigit = true := by
  have hwhole : ∀ e ∈ cs.take (run Char.isDigit cs), e.isDigit = true :=
    fun e he => of_mem_take_run he
  unfold numberTail
  dsimp only
  split
  case h_2 => exact .inl hwhole
  case h_1 d more hrest =>
    split
    case isFalse => exact .inl hwhole
    case isTrue hd =>
      refine .inr ⟨_, d, more.take (run Char.isDigit more), ?_, hwhole, hd,
        fun e he => of_mem_take_run he⟩
      rw [Nat.add_assoc, List.take_add, hrest, Nat.add_comm 2]
      rfl

/-! ### What the first character decides -/

theorem lead_quote (cs : List Char) :
    lead '"' cs =
      if run (· != '"') cs < cs.length then (.matched .string, run (· != '"') cs + 1)
      else (.unclosed, run (· != '"') cs) := rfl

theorem lead_comment (cs : List Char) :
    lead '/' ('/' :: cs) = (.matched .comment, run (· != '\n') cs + 1) := by
  simp [lead, run]

theorem lead_newline (cs : List Char) : lead '\n' cs = (.matched .newline, 0) := by
  simp [lead]

theorem lead_blank (hc : isBlank c = true) :
    lead c cs = (.matched .blank, run isBlank cs) := by
  have hne : c ≠ '"' ∧ c ≠ '/' ∧ c ≠ '\n' := by
    refine ⟨?_, ?_, ?_⟩ <;> rintro rfl <;> exact absurd hc (by decide)
  simp [lead, hc, hne]

theorem lead_digit (hc : c.isDigit = true) : lead c cs = (.matched .number, numberTail cs) := by
  have hne : c ≠ '"' ∧ c ≠ '/' ∧ c ≠ '\n' ∧ c ≠ ' ' ∧ c ≠ '\t' ∧ c ≠ '\r' := by
    refine ⟨?_, ?_, ?_, ?_, ?_, ?_⟩ <;> rintro rfl <;> exact absurd hc (by decide)
  simp [lead, isBlank, hc, hne]

theorem not_isDigit_of_startsWord (hc : startsWord c = true) : c.isDigit = false := by
  rw [Bool.eq_false_iff]
  intro hd
  have h9 : c ≤ '9' := (Lexicon.mem_digits.mpr hd).2
  rcases Lexicon.mem_letters.mpr hc with (h | h) | rfl
  · exact absurd (h.1.trans h9) (by decide)
  · exact absurd (h.1.trans h9) (by decide)
  · exact absurd h9 (by decide)

theorem lead_word (hc : startsWord c = true) :
    lead c cs = (.matched (.ofWord (String.ofList (c :: cs.take (run continuesWord cs)))),
      run continuesWord cs) := by
  have hne : c ≠ '"' ∧ c ≠ '/' ∧ c ≠ '\n' ∧ c ≠ ' ' ∧ c ≠ '\t' ∧ c ≠ '\r' := by
    refine ⟨?_, ?_, ?_, ?_, ?_, ?_⟩ <;> rintro rfl <;> exact absurd hc (by decide)
  simp [lead, isBlank, hc, hne, not_isDigit_of_startsWord hc]

theorem lead_markEqual {kind : Kind} (h : Kind.ofMarkEqual? c = some kind) :
    lead c ('=' :: cs) = (.matched kind, 1) := by
  unfold Kind.ofMarkEqual? at h
  split at h <;> cases h <;> rfl

/-- A mark stands alone unless it starts a comment or a mark of two characters. -/
theorem lead_mark {kind : Kind} (h : Kind.ofMark? c = some kind) (cs : List Char) :
    lead c cs = (.matched kind, 0) ∨ 0 < (lead c cs).2 := by
  have hne : c ≠ '"' ∧ c ≠ '\n' ∧ isBlank c = false ∧ c.isDigit = false ∧
      startsWord c = false := by
    unfold Kind.ofMark? at h
    split at h <;> first | decide | cases h
  by_cases hslash : c = '/' ∧ cs.head? = some '/'
  · obtain ⟨rfl, hhead⟩ := hslash
    obtain ⟨t, rfl⟩ := List.head?_eq_some_iff.mp hhead
    rw [lead_comment]
    exact .inr (Nat.succ_pos _)
  · simp only [lead, hne, hslash, if_false, Bool.false_eq_true, h]
    split
    · exact .inr Nat.one_pos
    · exact .inl rfl

theorem lead_le_length (c : Char) (cs : List Char) : (lead c cs).2 ≤ cs.length := by
  fun_cases lead c cs
  case case1 hlt => exact hlt
  case case2 | case3 | case5 | case7 => exact run_le_length _ cs
  case case6 => exact numberTail_le_length cs
  case case8 hhead _ =>
    obtain ⟨t, rfl⟩ := List.head?_eq_some_iff.mp hhead
    exact Nat.succ_pos _
  case case4 | case9 | case10 => exact Nat.zero_le _

theorem length_text_first (c : Char) (cs : List Char) :
    (first c cs).text.length = (lead c cs).2 + 1 := by
  have hle := lead_le_length c cs
  simp only [first, List.length_cons, List.length_take]
  omega

end Piece

namespace Kind

theorem ofWord_of_mem : ∀ e ∈ keywords, ofWord e.1 = e.2 := by decide

theorem ofWord_cases (word : String) :
    ofWord word = identifier ∨ (word, ofWord word) ∈ keywords := by
  unfold ofWord
  cases h : keywords.lookup word with
  | none => exact .inl rfl
  | some kind =>
    obtain ⟨before, after, hsplit, _⟩ := List.lookup_eq_some_iff.mp h
    rw [hsplit]
    exact .inr (List.mem_append_right _ (List.mem_cons_self ..))

/-- A keyword is a word. -/
theorem word_of_mem_keywords : ∀ e ∈ keywords, ∃ c w, e.1.toList = c :: w ∧
    Piece.startsWord c = true ∧ ∀ d ∈ w, Piece.continuesWord d = true := by
  simp [keywords, Piece.startsWord, Piece.continuesWord]

end Kind

/-! ### No text of any role outdoes the first piece -/

namespace Piece

variable {c : Char} {cs v w : List Char} {r : Role}

/-- A piece of the role `best.1` that takes `best.2` characters after its first
leaves no room for `v` as a text of the role `r`: it is longer, or it is as long and
either of that role or, where `v` would be an identifier, a keyword. -/
def Outdoes (best : Role × Nat) (r : Role) (v : List Char) : Prop :=
  v.length ≤ best.2 ∨
    v.length = best.2 + 1 ∧ (r = best.1 ∨ r = .matched .identifier ∧ best.1.Spells v)

theorem outdoes_cons {best : Role × Nat} (hw : w.length ≤ best.2) (hr : r = best.1) :
    Outdoes best r (c :: w) := by
  by_cases hlt : w.length < best.2
  · exact .inl (by rw [List.length_cons]; omega)
  · exact .inr ⟨by rw [List.length_cons]; omega, .inl hr⟩

/-- A word at the start of a text is cut short by scanning, or it is the first
piece. -/
theorem lead_of_word (hc : startsWord c = true) (hw : ∀ d ∈ w, continuesWord d = true)
    (h : w <+: cs) :
    w.length < (lead c cs).2 ∨
      lead c cs = (.matched (.ofWord (String.ofList (c :: w))), w.length) := by
  have hle : w.length ≤ run continuesWord cs := length_le_run h hw
  rw [lead_word hc]
  by_cases hlt : w.length < run continuesWord cs
  · exact .inl hlt
  · have heq : run continuesWord cs = w.length := by omega
    rw [heq, ← List.prefix_iff_eq_take.mp h]
    exact .inr rfl

/-- **The first piece outdoes every text of every role.** -/
theorem lead_outdoes (h : Lexeme r v) (hv : v <+: c :: cs) : Outdoes (lead c cs) r v := by
  cases h with
  | mark hkind =>
    obtain ⟨rfl, -⟩ := List.cons_prefix_cons.mp hv
    -- something longer starts with the mark, or it is the first piece
    rcases lead_mark hkind cs with hlead | hpos
    · exact outdoes_cons (Nat.zero_le _) (by rw [hlead])
    · exact .inl hpos
  | markEqual hkind =>
    obtain ⟨rfl, t, rfl⟩ := List.cons_prefix_cons.mp hv
    rw [List.singleton_append, lead_markEqual hkind]
    exact outdoes_cons (Nat.le_refl _) rfl
  | newline =>
    obtain ⟨rfl, -⟩ := List.cons_prefix_cons.mp hv
    rw [lead_newline]
    exact outdoes_cons (Nat.le_refl _) rfl
  | @keyword word kind hkind =>
    obtain ⟨d, w, hword, hd, hw⟩ := Kind.word_of_mem_keywords _ hkind
    rw [hword] at hv ⊢
    obtain ⟨rfl, hprefix⟩ := List.cons_prefix_cons.mp hv
    rcases lead_of_word hd hw hprefix with hlt | hlead
    · exact .inl hlt
    · refine outdoes_cons (by rw [hlead]) ?_
      rw [hlead, ← hword, String.ofList_toList, Kind.ofWord_of_mem _ hkind]
  | @identifier d w hd hw =>
    obtain ⟨rfl, hprefix⟩ := List.cons_prefix_cons.mp hv
    rcases lead_of_word hd hw hprefix with hlt | hlead
    · exact .inl hlt
    · rw [hlead]
      refine .inr ⟨rfl, ?_⟩
      rcases Kind.ofWord_cases (String.ofList (d :: w)) with hkind | hkind
      · exact .inl (by rw [hkind])
      · exact .inr ⟨rfl, by simpa using Role.spells_keyword hkind⟩
  | @string body hbody =>
    obtain ⟨rfl, t, rfl⟩ := List.cons_prefix_cons.mp hv
    have hrun : run (· != '"') (body ++ ['"'] ++ t) = body.length := by
      rw [List.append_assoc, run_append (by simpa using hbody)]
      rfl
    rw [lead_quote, hrun, if_pos (by simp)]
    exact outdoes_cons (by simp) rfl
  | @unclosed body hbody =>
    obtain ⟨rfl, hprefix⟩ := List.cons_prefix_cons.mp hv
    -- if the string is closed further on, the closed one is longer by its quote
    have hle : body.length ≤ run (· != '"') cs := length_le_run hprefix (by simpa using hbody)
    rw [lead_quote]
    split
    · exact .inl (Nat.succ_le_succ hle)
    · exact outdoes_cons hle rfl
  | whole hd hw =>
    obtain ⟨rfl, hprefix⟩ := List.cons_prefix_cons.mp hv
    rw [lead_digit hd]
    exact outdoes_cons (Nat.le_trans (length_le_run hprefix hw) (run_le_numberTail cs)) rfl
  | fraction hc hw hd hv' =>
    obtain ⟨rfl, t, rfl⟩ := List.cons_prefix_cons.mp hv
    rw [lead_digit hc]
    refine outdoes_cons ?_ rfl
    have hle := numberTail_fraction hw hd hv' t
    simp only [List.length_append, List.length_cons, List.append_assoc, List.cons_append] at hle ⊢
    omega
  | @comment body hbody =>
    obtain ⟨rfl, t, rfl⟩ := List.cons_prefix_cons.mp hv
    rw [List.cons_append, lead_comment]
    refine outdoes_cons (Nat.succ_le_succ ?_) rfl
    exact length_le_run ⟨t, rfl⟩ (by simpa using hbody)
  | blank hd hw =>
    obtain ⟨rfl, hprefix⟩ := List.cons_prefix_cons.mp hv
    rw [lead_blank hd]
    exact outdoes_cons (length_le_run hprefix hw) rfl

/-! ### The first piece is of its role -/

theorem lexeme_quote (cs : List Char) :
    Lexeme (lead '"' cs).1 ('"' :: cs.take (lead '"' cs).2) := by
  have hbody : ∀ d ∈ cs.take (run (· != '"') cs), d ≠ '"' := by
    intro d hd
    simpa using of_mem_take_run hd
  rw [lead_quote]
  split
  case isFalse => exact .unclosed hbody
  case isTrue hlt =>
    obtain ⟨x, htake, hx⟩ := exists_of_run_lt hlt
    obtain rfl : x = '"' := by simpa using hx
    dsimp only
    rw [htake]
    exact .string hbody

theorem lexeme_number (hc : c.isDigit = true) :
    Lexeme (.matched .number) (c :: cs.take (numberTail cs)) := by
  rcases take_numberTail cs with hwhole | ⟨w, d, v, htake, hw, hd, hv⟩
  · exact .whole hc hwhole
  · rw [htake]
    exact .fraction hc hw hd hv

theorem lexeme_word (hc : startsWord c = true) (hw : ∀ d ∈ w, continuesWord d = true) :
    Lexeme (.matched (.ofWord (String.ofList (c :: w)))) (c :: w) := by
  rcases Kind.ofWord_cases (String.ofList (c :: w)) with hkind | hkind
  · rw [hkind]
    exact .identifier hc hw
  · simpa using Lexeme.keyword hkind

/-- **The first piece is a text of its role, or a stray character.** -/
theorem lead_lexeme (c : Char) (cs : List Char) :
    lead c cs = (.stray c, 0) ∨ Lexeme (lead c cs).1 (c :: cs.take (lead c cs).2) := by
  by_cases hquote : c = '"'
  · subst hquote
    exact .inr (lexeme_quote cs)
  by_cases hslash : c = '/' ∧ cs.head? = some '/'
  · obtain ⟨rfl, hhead⟩ := hslash
    obtain ⟨t, rfl⟩ := List.head?_eq_some_iff.mp hhead
    rw [lead_comment]
    refine .inr (.comment ?_)
    intro d hd
    simpa using of_mem_take_run hd
  by_cases hnewline : c = '\n'
  · subst hnewline
    rw [lead_newline]
    exact .inr .newline
  by_cases hblank : isBlank c = true
  · rw [lead_blank hblank]
    exact .inr (.blank hblank fun d hd => of_mem_take_run hd)
  by_cases hdigit : c.isDigit = true
  · rw [lead_digit hdigit]
    exact .inr (lexeme_number hdigit)
  by_cases hword : startsWord c = true
  · rw [lead_word hword]
    exact .inr (lexeme_word hword fun d hd => of_mem_take_run hd)
  -- only marks are left, those of two characters first
  rw [lead, if_neg hquote, if_neg hslash, if_neg hnewline, if_neg hblank, if_neg hdigit,
    if_neg hword]
  split
  case h_1 kind hkind hhead =>
    obtain ⟨t, rfl⟩ := List.head?_eq_some_iff.mp hhead
    exact .inr (.markEqual hkind)
  case h_2 =>
    split
    case h_1 kind hkind => exact .inr (.mark hkind)
    case h_2 => exact .inl rfl

end Piece

/-! ### The first piece wins -/

theorem Lexeme.ne_nil {r : Role} {w : List Char} (h : Lexeme r w) : w ≠ [] := by
  cases h with
  | keyword hkind =>
    obtain ⟨c, w, hword, -⟩ := Kind.word_of_mem_keywords _ hkind
    rw [hword]
    exact List.cons_ne_nil _ _
  | _ => exact List.cons_ne_nil _ _

theorem Role.not_spells_stray {c : Char} {w : List Char} : ¬ (stray c).Spells w := nofun

theorem Role.not_spells_identifier {w : List Char} : ¬ (matched .identifier).Spells w := nofun

namespace Piece

variable {c : Char} {cs w : List Char} {r : Role}

theorem text_first_start (c : Char) (cs : List Char) : (first c cs).text <+: c :: cs :=
  ⟨_, text_first_append_drop c cs⟩

/-- A start of the text that is of some role is shorter than the first piece, or it
is that piece. -/
theorem fits_first (h : r.Fits w) (hw : w <+: c :: cs) :
    w.length < (first c cs).text.length ∨ w = (first c cs).text ∧
      (r = (first c cs).role ∨ r = .matched .identifier ∧ (first c cs).role.Spells w) := by
  have hlength := length_text_first c cs
  rcases lead_outdoes (Role.fits_iff_lexeme.mp h) hw with hle | ⟨heq, hrole⟩
  · exact .inl (by omega)
  · refine .inr ⟨?_, hrole⟩
    exact (List.prefix_of_prefix_length_le hw (text_first_start c cs) (by omega)).eq_of_length
      (by omega)

/-- **The first piece wins, unless no text of any role starts here.** -/
theorem first_wins_or_stray (c : Char) (cs : List Char) :
    (first c cs).role.Wins (first c cs).text (c :: cs) ∨
      first c cs = ⟨.stray c, [c]⟩ ∧ ∀ (r : Role) (w : List Char), w <+: c :: cs → ¬ r.Fits w := by
  rcases lead_lexeme c cs with hstray | hlexeme
  · have hfirst : first c cs = ⟨.stray c, [c]⟩ := by rw [first, hstray]; rfl
    refine .inr ⟨hfirst, ?_⟩
    intro r w hw hfits
    rcases fits_first hfits hw with hlt | ⟨-, rfl | ⟨-, hspells⟩⟩
    · rw [hfirst] at hlt
      exact (Role.fits_iff_lexeme.mp hfits).ne_nil (List.length_eq_zero_iff.mp (by simpa using hlt))
    · rw [hfirst] at hfits
      exact Role.not_fits_stray hfits
    · rw [hfirst] at hspells
      exact Role.not_spells_stray hspells
  · refine .inl ⟨text_first_start c cs, Role.fits_iff_lexeme.mpr hlexeme, ?_, ?_⟩
    · intro r w hw hfits
      rcases fits_first hfits hw with hlt | ⟨rfl, -⟩
      · exact Nat.le_of_lt hlt
      · exact Nat.le_refl _
    · intro r hspells
      rcases fits_first (Role.fits_of_spells hspells) (text_first_start c cs) with
        hlt | ⟨-, hrole | ⟨rfl, -⟩⟩
      · exact absurd hlt (Nat.lt_irrefl _)
      · exact hrole
      · exact absurd hspells Role.not_spells_identifier

/-- Nothing else wins. -/
theorem eq_first_of_wins (h : r.Wins w (c :: cs)) : ⟨r, w⟩ = first c cs := by
  rcases first_wins_or_stray c cs with hfirst | ⟨-, hnone⟩
  · have hle := h.longest _ _ hfirst.start hfirst.fits
    rcases fits_first h.fits h.start with hlt | ⟨rfl, rfl | ⟨rfl, hspells⟩⟩
    · omega
    · rfl
    · -- an identifier that is spelled like a keyword does not win over it
      have hrole := h.spelled _ hspells
      rw [← hrole]
  · exact absurd h.fits (hnone _ _ h.start)

theorem drop_lead_of_stray (h : first c cs = ⟨.stray c, [c]⟩) : cs.drop (lead c cs).2 = cs := by
  have hlength := length_text_first c cs
  rw [h, List.length_singleton] at hlength
  rw [show (lead c cs).2 = 0 by omega, List.drop_zero]

end Piece
end LoxLang
