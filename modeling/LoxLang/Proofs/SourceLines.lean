import Mathlib.Data.List.Forall2
import LoxLang.Proofs.Segmentation
import LoxLang.Proofs.Stretches

/-! # The lines of tokens and errors

Scanning keeps one number besides the text that is left, the line it has come to, and
goes on to another line behind line breaks and strings only.  Pieces of other roles hold
no line break, so what is added is in any case the line breaks of the piece
(`Piece.endLine_of_mem_pieces`).  At every piece the number is therefore one more than the
line breaks up to the end of the piece, whatever the pieces before it were
(`Piece.lined_eq_map_placed`).  Tokens and errors take it over, and it never falls.

Parsing blames tokens from left to right: what an attempt leaves for the next one
stands behind the token that it blames (`Program.exists_blamed`).  So the lines of its
errors do not fall either, and each of them is the line of a token
(`Program.lines_errors`).  Both together are `source_lines_exact`.
-/
namespace LoxLang

/-- Whether a piece of this role is a token. -/
def Role.isToken : Role → Bool
  | .matched kind => !kind.silent
  | .unclosed => false
  | .stray _ => false

/-- Whether a piece of this role is a fault of the source. -/
def Role.isFault : Role → Bool
  | .matched _ => false
  | .unclosed => true
  | .stray _ => true

/-- The error that a piece gives, on some line. -/
inductive Reports : Piece → SyntaxError → Prop
  | stray (c : Char) (line : Nat) : Reports ⟨.stray c, [c]⟩ (.strayCharacter c line)
  | unclosed (w : List Char) (line : Nat) : Reports ⟨.unclosed, w⟩ (.unclosedString line)

/-- The line on which a source has come after the text `before`. -/
def lineAfter (before : List Char) : Nat := 1 + before.count '\n'

theorem lineAfter_mono {before after : List Char} (h : before <+: after) :
    lineAfter before ≤ lineAfter after :=
  Nat.add_le_add_left (h.sublist.count_le '\n') 1

namespace Piece

theorem fits_or_stray_of_mem_pieces {cs : List Char} {p : Piece} (h : p ∈ pieces cs) :
    p.role.Fits p.text ∨ ∃ c, p = ⟨.stray c, [c]⟩ ∧ c ≠ '\n' := by
  fun_induction pieces cs with
  | case1 => cases h
  | case2 c cs ih =>
    rcases List.mem_cons.mp h with rfl | h
    · rcases first_wins_or_stray c cs with hwins | ⟨hstray, hnone⟩
      · exact .inl hwins.fits
      · refine .inr ⟨c, hstray, ?_⟩
        rintro rfl
        exact hnone _ _ (List.prefix_append ['\n'] cs) (Role.fits_iff_lexeme.mpr .newline)
    · exact ih h

/-! ### The counter -/

/-- The counter goes on by the line breaks that the piece holds. -/
def Counts (p : Piece) : Prop := ∀ line, p.endLine line = line + p.text.count '\n'

/-- A piece without a line break leaves the counter where it is.  The role of a line break is
left out, since it leads to the next line whatever its text. -/
theorem counts_of_notMem {p : Piece} (hrole : p.role ≠ .matched .newline) (h : '\n' ∉ p.text) :
    p.Counts := by
  intro line
  unfold endLine
  rw [List.count_eq_zero.mpr h]
  split
  · exact absurd ‹_› hrole
  · rfl
  · rfl
  · rfl

end Piece

/-- **The counter counts line breaks**, in the texts of every role. -/
theorem Lexeme.counts {r : Role} {w : List Char} (h : Lexeme r w) : Piece.Counts ⟨r, w⟩ := by
  -- apart from the insides of strings, no class of characters has the line break
  have hne {q : Char → Bool} (hq : q '\n' = false) {c : Char} (hc : q c) : '\n' ≠ c := by
    rintro rfl
    rw [hc] at hq
    cases hq
  have hclass {q : Char → Bool} (hq : q '\n' = false) {w : List Char} (hw : ∀ d ∈ w, q d) :
      '\n' ∉ w := fun hmem => hne hq (hw _ hmem) rfl
  cases h with
  | newline => exact fun _ => rfl
  | string | unclosed => exact fun _ => rfl
  | mark hmark =>
    refine Piece.counts_of_notMem ?_ ?_
    · rintro ⟨⟩
      unfold Kind.ofMark? at hmark
      split at hmark <;> cases hmark
    · intro hmem
      rw [← List.mem_singleton.mp hmem] at hmark
      cases hmark
  | markEqual hmark =>
    refine Piece.counts_of_notMem ?_ ?_
    · rintro ⟨⟩
      unfold Kind.ofMarkEqual? at hmark
      split at hmark <;> cases hmark
    · rw [List.mem_pair]
      rintro (rfl | hequal)
      · cases hmark
      · cases hequal
  | keyword hword =>
    have htable : ∀ e ∈ Kind.keywords, e.2 ≠ .newline ∧ '\n' ∉ e.1.toList := by decide
    obtain ⟨hkind, hnot⟩ := htable _ hword
    refine Piece.counts_of_notMem ?_ hnot
    rintro ⟨⟩
    exact hkind rfl
  | identifier hc hw =>
    refine Piece.counts_of_notMem nofun (List.not_mem_cons_of_ne_of_not_mem ?_ ?_)
    · exact hne (q := Piece.startsWord) rfl hc
    · exact hclass (q := Piece.continuesWord) rfl hw
  | whole hc hw =>
    refine Piece.counts_of_notMem nofun ?_
    exact hclass (q := Char.isDigit) rfl (List.forall_mem_cons.mpr ⟨hc, hw⟩)
  | fraction hc hw hd hv =>
    refine Piece.counts_of_notMem nofun ?_
    have hwhole := hclass (q := Char.isDigit) rfl (List.forall_mem_cons.mpr ⟨hc, hw⟩)
    have hfraction := hclass (q := Char.isDigit) rfl (List.forall_mem_cons.mpr ⟨hd, hv⟩)
    rw [← List.cons_append, List.mem_append, not_or]
    exact ⟨hwhole, List.not_mem_cons_of_ne_of_not_mem (by decide) hfraction⟩
  | comment hbody =>
    refine Piece.counts_of_notMem nofun ?_
    rw [List.mem_cons, List.mem_cons, not_or, not_or]
    exact ⟨by decide, by decide, fun hmem => hbody _ hmem rfl⟩
  | blank hc hw =>
    refine Piece.counts_of_notMem nofun ?_
    exact hclass (q := Piece.isBlank) rfl (List.forall_mem_cons.mpr ⟨hc, hw⟩)

namespace Piece

/-- **The counter counts line breaks**, in every piece. -/
theorem counts_of_mem_pieces {cs : List Char} {p : Piece} (h : p ∈ pieces cs) : p.Counts := by
  rcases fits_or_stray_of_mem_pieces h with hfits | ⟨c, rfl, hc⟩
  · exact (Role.fits_iff_lexeme.mp hfits).counts
  · exact counts_of_notMem nofun fun hmem => hc (List.mem_singleton.mp hmem).symm

theorem lastLine_pieces (line : Nat) (cs : List Char) :
    lastLine line (pieces cs) = line + cs.count '\n' := by
  have hcounts (ps : List Piece) (hps : ∀ p ∈ ps, p.Counts) (line : Nat) :
      lastLine line ps = line + (ps.flatMap text).count '\n' := by
    induction ps generalizing line with
    | nil => rfl
    | cons p ps ih =>
      obtain ⟨hp, hps⟩ := List.forall_mem_cons.mp hps
      rw [List.flatMap_cons, List.count_append, ← Nat.add_assoc, ← hp line]
      exact ih hps (p.endLine line)
  rw [hcounts _ (fun _ => counts_of_mem_pieces), flatMap_text_pieces]

/-! ### Pieces and their places -/

/-- The pieces, each with the text up to its end, when the first stands behind the
text `before`. -/
def placed (before : List Char) : List Piece → List (List Char × Piece)
  | [] => []
  | p :: ps => (before ++ p.text, p) :: placed (before ++ p.text) ps

theorem map_snd_placed (before : List Char) (ps : List Piece) :
    (placed before ps).map Prod.snd = ps := by
  induction ps generalizing before with
  | nil => rfl
  | cons p ps ih => rw [placed, List.map_cons, ih]

/-- **The line of a piece counts the line breaks up to its end.** -/
theorem lined_eq_map_placed (before : List Char) {ps : List Piece} (hps : ∀ p ∈ ps, p.Counts) :
    lined (lineAfter before) ps =
      (placed before ps).map fun q => (lineAfter q.1, q.2) := by
  induction ps generalizing before with
  | nil => rfl
  | cons p ps ih =>
    obtain ⟨hp, hps⟩ := List.forall_mem_cons.mp hps
    have hline : p.endLine (lineAfter before) = lineAfter (before ++ p.text) := by
      rw [hp, lineAfter, lineAfter, List.count_append, Nat.add_assoc]
    rw [lined, placed, List.map_cons, hline, ih _ hps]

/-- The text up to the end of a piece lies between what stands before all pieces and
the whole. -/
theorem prefix_of_mem_placed {before : List Char} {ps : List Piece} {q : List Char × Piece}
    (h : q ∈ placed before ps) : before <+: q.1 ∧ q.1 <+: before ++ ps.flatMap text := by
  induction ps generalizing before with
  | nil => cases h
  | cons p ps ih =>
    rw [List.flatMap_cons, ← List.append_assoc]
    rcases List.mem_cons.mp h with rfl | h
    · exact ⟨List.prefix_append _ _, List.prefix_append _ _⟩
    · obtain ⟨hstart, hwhole⟩ := ih h
      exact ⟨(List.prefix_append _ _).trans hstart, hwhole⟩

/-- Later pieces end on later lines, or on the same. -/
theorem pairwise_placed (before : List Char) (ps : List Piece) :
    (placed before ps).Pairwise fun q q' => lineAfter q.1 ≤ lineAfter q'.1 := by
  induction ps generalizing before with
  | nil => exact .nil
  | cons p ps ih =>
    refine .cons ?_ (ih _)
    intro q' hq'
    exact lineAfter_mono (prefix_of_mem_placed hq').1

/-- A string that is still open ends where the text does. -/
theorem place_of_unclosed {before cs : List Char} {q : List Char × Piece}
    (h : q ∈ placed before (pieces cs)) (hrole : q.2.role = .unclosed) : q.1 = before ++ cs := by
  fun_induction pieces cs generalizing before with
  | case1 => cases h
  | case2 c cs ih =>
    have hsplit := text_first_append_drop c cs
    rcases List.mem_cons.mp h with rfl | h
    · rw [drop_lead_of_unclosed hrole, List.append_nil] at hsplit
      exact congrArg (before ++ ·) hsplit
    · rw [ih h, List.append_assoc, hsplit]

/-! ### What each piece gives -/

theorem line_of_token? {q : Nat × Piece} {t : Token} (h : token? q = some t) : t.line = q.1 := by
  obtain ⟨line, role, w⟩ := q
  cases role with
  | unclosed | stray => cases h
  | matched kind =>
    rw [token?] at h
    split at h
    · cases h
    · cases h
      rfl

theorem line_of_error? {q : Nat × Piece} {e : SyntaxError} (h : error? q = some e) :
    e.line = q.1 := by
  obtain ⟨line, role, w⟩ := q
  cases role <;> cases h <;> rfl

/-- A piece gives a token of its own, or none, as its role says. -/
theorem token?_of_mem_pieces {cs : List Char} {p : Piece} (h : p ∈ pieces cs) (line : Nat) :
    p.role.isToken = true ∧ (∃ t, token? (line, p) = some t ∧ Emits p t) ∨
      p.role.isToken = false ∧ token? (line, p) = none := by
  obtain ⟨role, w⟩ := p
  cases role with
  | unclosed | stray => exact .inr ⟨rfl, rfl⟩
  | matched kind =>
    rcases fits_or_stray_of_mem_pieces h with hfits | ⟨c, hstray, -⟩
    · have hrole : (Role.matched kind).isToken = !kind.silent := rfl
      rcases token?_matched hfits line with ⟨hmem, hnone⟩ | ⟨t, ht, hemits⟩
      · have hsilent : kind.silent = true := by simpa [Kind.silent] using hmem
        exact .inr ⟨by rw [hrole, hsilent]; rfl, hnone⟩
      · have hsilent : kind.silent = false := by
          by_contra hsilent
          rw [token?, if_pos (by simpa using hsilent)] at ht
          cases ht
        exact .inl ⟨by rw [hrole, hsilent]; rfl, t, ht, hemits⟩
    · cases hstray

/-- A piece gives an error of its own, or none, as its role says. -/
theorem error?_of_mem_pieces {cs : List Char} {p : Piece} (h : p ∈ pieces cs) (line : Nat) :
    p.role.isFault = true ∧ (∃ e, error? (line, p) = some e ∧ Reports p e) ∨
      p.role.isFault = false ∧ error? (line, p) = none := by
  obtain ⟨role, w⟩ := p
  cases role with
  | matched kind => exact .inr ⟨rfl, rfl⟩
  | unclosed => exact .inl ⟨rfl, _, rfl, .unclosed w line⟩
  | stray c =>
    rcases fits_or_stray_of_mem_pieces h with hfits | ⟨d, hstray, -⟩
    · exact absurd hfits Role.not_fits_stray
    · cases hstray
      exact .inl ⟨rfl, _, rfl, .stray c line⟩

end Piece

/-- What a partial function gives on a list, side by side with what it is given on. -/
theorem forall₂_filter_filterMap {α β : Type} {f : α → Option β} {p : α → Bool}
    {R : α → β → Prop} {xs : List α}
    (h : ∀ x ∈ xs, p x = true ∧ (∃ y, f x = some y ∧ R x y) ∨ p x = false ∧ f x = none) :
    List.Forall₂ R (xs.filter p) (xs.filterMap f) := by
  induction xs with
  | nil => exact .nil
  | cons x xs ih =>
    obtain ⟨hx, hxs⟩ := List.forall_mem_cons.mp h
    rcases hx with ⟨hp, y, hy, hR⟩ | ⟨hp, hnone⟩
    · rw [List.filter_cons_of_pos hp, List.filterMap_cons_some hy]
      exact .cons hR (ih hxs)
    · rw [List.filter_cons_of_neg (by simp [hp]), List.filterMap_cons_none hnone]
      exact ih hxs

/-! ### The lines that parsing reports -/

namespace Program
open Grammar

/-- The lines of the tokens do not fall. -/
def LinesRise (ts : List Token) : Prop := ts.Pairwise fun t u => t.line ≤ u.line

/-- **The blamed token.**  Where the input ends, an error has the line of a token, and
the next attempt starts behind that token. -/
theorem exists_blamed {ts : List Token} {e : SyntaxError} (hend : ∃ t ∈ ts, t.kind = .eof)
    (h : (attempt ts).1 = .error e) :
    ∃ us t ws, ts = us ++ t :: ws ∧ e.line = t.line ∧ (attempt ts).2 <:+ t :: ws := by
  obtain ⟨us, vs, demand, n, hts, -, -, hunb, rfl, -, hrest⟩ := attempt_error h
  have hsuffix : (attempt ts).2 <:+ vs := by
    rw [hrest]
    exact (recover_suffix _).trans (List.drop_suffix n vs)
  cases vs with
  | nil =>
    -- the end of the input would be among the tokens that were read
    obtain ⟨t, ht, heof⟩ := hend
    rw [hts, List.append_nil] at ht
    exact absurd heof (hunb t ht).2
  | cons t ws =>
    refine ⟨us, t, ws, hts, ?_, hsuffix⟩
    rw [List.head?_cons, SyntaxError.unmet]
    split <;> rfl

/-- An attempt leaves the end of the input. -/
theorem exists_eof_attempt {ts : List Token} (hend : ∃ t ∈ ts, t.kind = .eof) :
    ∃ t ∈ (attempt ts).2, t.kind = .eof := by
  obtain ⟨t, ht, heof⟩ := hend
  rw [← consumed_append ts] at ht
  rcases List.mem_append.mp ht with ht | ht
  · exact absurd heof (kind_ne_eof_of_mem_consumed ht)
  · exact ⟨t, ht, heof⟩

/-- **Errors are reported in the order of their lines**, and on lines of tokens. -/
theorem lines_errors {ts : List Token} (hend : ∃ t ∈ ts, t.kind = .eof) (hrise : LinesRise ts) :
    (parse ts).errors.Pairwise (fun e e' => e.line ≤ e'.line) ∧
      ∀ e ∈ (parse ts).errors, ∃ t ∈ ts, e.line = t.line := by
  rw [errors_parse]
  fun_induction attempts ts with
  | case1 => exact ⟨.nil, List.forall_mem_nil _⟩
  | case2 ts hnot r ih =>
    have hsuffix : r.2 <:+ ts := attempt_suffix ts
    obtain ⟨hpairwise, hlines⟩ := ih (exists_eof_attempt hend) (hrise.sublist hsuffix.sublist)
    have hlines' : ∀ e ∈ (attempts r.2).filterMap error?, ∃ t ∈ ts, e.line = t.line := by
      intro e he
      obtain ⟨t, ht, hline⟩ := hlines e he
      exact ⟨t, hsuffix.subset ht, hline⟩
    cases hfirst : r.1 with
    | ok s => exact ⟨hpairwise, hlines'⟩
    | error e =>
      obtain ⟨us, t, ws, hts, hline, hbehind⟩ := exists_blamed hend hfirst
      refine ⟨.cons ?_ hpairwise, List.forall_mem_cons.mpr ⟨⟨t, by simp [hts], hline⟩, hlines'⟩⟩
      -- a later error has the line of the blamed token or of one behind it
      intro e' he'
      obtain ⟨t', ht', hline'⟩ := hlines e' he'
      rw [LinesRise, hts] at hrise
      have hleast := (List.pairwise_cons.mp (List.pairwise_append.mp hrise).2.1).1
      rw [hline, hline']
      rcases List.mem_cons.mp (hbehind.subset ht') with rfl | ht'
      · exact Nat.le_refl _
      · exact hleast t' ht'

end Program

/-! ### The lines of a source -/

section Source
variable (source : String)

/-- The pieces of a source, each with the text up to its end. -/
def places : List (List Char × Piece) := Piece.placed [] (Piece.pieces source.toList)

theorem lined_eq_map_places :
    Piece.lined 1 (Piece.pieces source.toList) =
      (places source).map fun q => (lineAfter q.1, q.2) :=
  Piece.lined_eq_map_placed [] fun _ => Piece.counts_of_mem_pieces

theorem mem_pieces_of_mem_places {q : List Char × Piece} (h : q ∈ places source) :
    q.2 ∈ Piece.pieces source.toList := by
  rw [← Piece.map_snd_placed [] (Piece.pieces source.toList)]
  exact List.mem_map_of_mem h

theorem lineAfter_le_of_mem_places {q : List Char × Piece} (h : q ∈ places source) :
    lineAfter q.1 ≤ lineAfter source.toList := by
  have hprefix := (Piece.prefix_of_mem_placed h).2
  rw [List.nil_append, Piece.flatMap_text_pieces] at hprefix
  exact lineAfter_mono hprefix

/-- The tokens and errors of a source, from its pieces and their places. -/
theorem scan_eq_filterMap_places :
    scan source =
      ⟨(places source).filterMap (fun q => Piece.token? (lineAfter q.1, q.2)) ++
          [Token.eof (lineAfter source.toList)],
        (places source).filterMap fun q => Piece.error? (lineAfter q.1, q.2)⟩ := by
  rw [scan, Scan.ofChars]
  simp only [lined_eq_map_places, Piece.lastLine_pieces, List.filterMap_map]
  rfl

/-- What the places give in their order has lines that do not fall. -/
theorem pairwise_filterMap_places {α : Type} {line : α → Nat} {f : Nat × Piece → Option α}
    (hf : ∀ q a, f q = some a → line a = q.1) :
    ((places source).filterMap fun q => f (lineAfter q.1, q.2)).Pairwise
      fun a b => line a ≤ line b := by
  refine (Piece.pairwise_placed [] _).filterMap _ ?_
  intro q q' hle a ha b hb
  rwa [hf _ _ ha, hf _ _ hb]

theorem linesRise_tokens : Program.LinesRise (scan source).tokens := by
  rw [scan_eq_filterMap_places]
  refine List.pairwise_append.mpr ⟨?_, List.pairwise_singleton _ _, ?_⟩
  · exact pairwise_filterMap_places source fun _ _ => Piece.line_of_token?
  · intro t ht last hlast
    obtain ⟨q, hq, htoken⟩ := List.mem_filterMap.mp ht
    rw [List.mem_singleton.mp hlast, Piece.line_of_token? htoken]
    exact lineAfter_le_of_mem_places source hq

end Source

/-- The tokens before the end of the input are all but the last. -/
theorem beforeEnd_tokens (source : String) :
    Program.beforeEnd (scan source).tokens = (scan source).tokens.dropLast := by
  obtain ⟨ts, line, htokens, hts⟩ := tokens_scan source
  have hlast : Program.beforeEnd [Token.eof line] = [] := Program.beforeEnd_of_atEnd rfl
  rw [htokens, Program.beforeEnd_append hts, hlast, List.append_nil, List.dropLast_concat]

/-- The lines of tokens lie between the first and the last of the source. -/
theorem line_of_mem_tokens {source : String} {t : Token} (ht : t ∈ (scan source).tokens) :
    1 ≤ t.line ∧ t.line ≤ lineAfter source.toList := by
  rw [scan_eq_filterMap_places] at ht
  rcases List.mem_append.mp ht with ht | ht
  · obtain ⟨q, hq, htoken⟩ := List.mem_filterMap.mp ht
    rw [Piece.line_of_token? htoken]
    exact ⟨Nat.le_add_right _ _, lineAfter_le_of_mem_places source hq⟩
  · rw [List.mem_singleton.mp ht]
    exact ⟨Nat.le_add_right _ _, Nat.le_refl _⟩

/-- A string that is still open is reported on the last line. -/
theorem line_of_unclosedString {source : String} {line : Nat}
    (h : .unclosedString line ∈ (scan source).errors) : line = lineAfter source.toList := by
  rw [scan_eq_filterMap_places] at h
  obtain ⟨⟨upTo, p⟩, hq, herror⟩ := List.mem_filterMap.mp h
  have hrole : p.role = .unclosed := by
    obtain ⟨role, w⟩ := p
    cases role <;> cases herror
    rfl
  have hplace : upTo = source.toList := Piece.place_of_unclosed hq hrole
  rw [← hplace]
  exact Piece.line_of_error? herror

/-- **Lines are exact.**  In the one segmentation of a source, the pieces that are
tokens give the tokens and those that are faults give the errors, in their order, each
on the line that follows from the line breaks up to its end; the end of the input is on
the line that follows from all of them.  So the lines of tokens do not fall, nor do
those of errors.  What parsing then reports is on lines that do not fall either, from
the first line of the source to its last. -/
theorem source_lines_exact (source : String) :
    ∃ ps, Segmentation source.toList ps ∧
      (∃ ts, (scan source).tokens = ts ++ [Token.eof (lineAfter source.toList)] ∧
        List.Forall₂ (fun q t => Emits q.2 t ∧ t.line = lineAfter q.1)
          ((Piece.placed [] ps).filter (·.2.role.isToken)) ts) ∧
      List.Forall₂ (fun q e => Reports q.2 e ∧ e.line = lineAfter q.1)
        ((Piece.placed [] ps).filter (·.2.role.isFault)) (scan source).errors ∧
      (scan source).tokens.Pairwise (fun t u => t.line ≤ u.line) ∧
      (scan source).errors.Pairwise (fun e e' => e.line ≤ e'.line) ∧
      (parse (scan source).tokens).errors.Pairwise (fun e e' => e.line ≤ e'.line) ∧
      ∀ e ∈ (parse (scan source).tokens).errors,
        1 ≤ e.line ∧ e.line ≤ lineAfter source.toList := by
  have hscan := scan_eq_filterMap_places source
  have hend : ∃ t ∈ (scan source).tokens, t.kind = .eof := by
    rw [hscan]
    exact ⟨_, List.mem_append_right _ List.mem_cons_self, rfl⟩
  obtain ⟨hpairwise, hlines⟩ := Program.lines_errors hend (linesRise_tokens source)
  refine ⟨_, Piece.segmentation_pieces source.toList,
    ⟨_, congrArg Scan.tokens hscan, forall₂_filter_filterMap fun q hq => ?_⟩, ?_,
    linesRise_tokens source, ?_, hpairwise, ?_⟩
  · rcases Piece.token?_of_mem_pieces (mem_pieces_of_mem_places source hq) (lineAfter q.1) with
      ⟨htoken, t, ht, hemits⟩ | hnone
    · exact .inl ⟨htoken, t, ht, hemits, Piece.line_of_token? ht⟩
    · exact .inr hnone
  · rw [hscan]
    refine forall₂_filter_filterMap fun q hq => ?_
    rcases Piece.error?_of_mem_pieces (mem_pieces_of_mem_places source hq) (lineAfter q.1) with
      ⟨hfault, e, he, hreports⟩ | hnone
    · exact .inl ⟨hfault, e, he, hreports, Piece.line_of_error? he⟩
    · exact .inr hnone
  · rw [hscan]
    exact pairwise_filterMap_places source fun _ _ => Piece.line_of_error?
  · intro e he
    obtain ⟨t, ht, hline⟩ := hlines e he
    rw [hline]
    exact line_of_mem_tokens ht

end LoxLang
