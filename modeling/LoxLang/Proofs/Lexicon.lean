import LoxLang.Piece
import Mathlib.Computability.Language
import Mathlib.Data.Char
import Mathlib.Order.Interval.Set.Defs

/-! # The lexicon

Which texts are of which role, said without any scanning: a role has either one
spelling or a regular set of texts, and the table is `Kind.pattern` and
`Role.pattern`.  Nothing is of the role of a stray character or of the end of the
input.

The table is then read once more by the shape of the text (`Lexeme`).  That view
names the first character of every text, which is what scanning decides by, and
`Role.fits_iff_lexeme` says that the two views agree.
-/
namespace LoxLang

open Computability

/-- What the texts of a role are. -/
inductive Pattern where
  /-- Only this text. -/
  | spelled (text : String)
  /-- The texts of a language. -/
  | among (texts : Language Char)

/-- The texts that a pattern admits. -/
def Pattern.texts : Pattern → Language Char
  | spelled text => {text.toList}
  | among texts => texts

namespace Lexicon

/-- The texts of one character, which is in `s`. -/
def oneOf (s : Set Char) : Language Char := {w | ∃ c ∈ s, w = [c]}

/-- The texts of characters in `s`. -/
def many (s : Set Char) : Language Char := (oneOf s)∗

/-- The texts of one or more characters in `s`. -/
def oneOrMore (s : Set Char) : Language Char := oneOf s * many s

/-- The ASCII letters and the underscore. -/
def letters : Set Char := Set.Icc 'A' 'Z' ∪ Set.Icc 'a' 'z' ∪ {'_'}

/-- The ASCII digits. -/
def digits : Set Char := Set.Icc '0' '9'

end Lexicon

open Lexicon in
/-- The pattern of a kind. -/
def Kind.pattern : Kind → Pattern
  | leftParen => .spelled "("
  | rightParen => .spelled ")"
  | leftBrace => .spelled "\x7b"
  | rightBrace => .spelled "\x7d"
  | comma => .spelled ","
  | dot => .spelled "."
  | minus => .spelled "-"
  | plus => .spelled "+"
  | semicolon => .spelled ";"
  | slash => .spelled "/"
  | star => .spelled "*"
  | bang => .spelled "!"
  | bangEqual => .spelled "!="
  | equal => .spelled "="
  | equalEqual => .spelled "=="
  | greater => .spelled ">"
  | greaterEqual => .spelled ">="
  | less => .spelled "<"
  | lessEqual => .spelled "<="
  -- a letter or an underscore, then letters, underscores and digits
  | identifier => .among (oneOf letters * many (letters ∪ digits))
  -- what stands between two quotes may be anything but a quote, a line break included
  | string => .among (oneOf {'"'} * many {'"'}ᶜ * oneOf {'"'})
  -- a point belongs to a number only between digits
  | number => .among (oneOrMore digits * (1 + oneOf {'.'} * oneOrMore digits))
  | kwAnd => .spelled "and"
  | kwClass => .spelled "class"
  | kwElse => .spelled "else"
  | kwFalse => .spelled "false"
  | kwFun => .spelled "fun"
  | kwFor => .spelled "for"
  | kwIf => .spelled "if"
  | kwNil => .spelled "nil"
  | kwOr => .spelled "or"
  | kwPrint => .spelled "print"
  | kwReturn => .spelled "return"
  | kwSuper => .spelled "super"
  | kwThis => .spelled "this"
  | kwTrue => .spelled "true"
  | kwVar => .spelled "var"
  | kwWhile => .spelled "while"
  | eof => .among 0
  | comment => .among ({"//".toList} * many {'\n'}ᶜ)
  | newline => .spelled "\n"
  | blank => .among (oneOrMore {' ', '\t', '\r'})

open Lexicon in
/-- The pattern of a role. -/
def Role.pattern : Role → Pattern
  | .matched kind => kind.pattern
  | .unclosed => .among (oneOf {'"'} * many {'"'}ᶜ)
  | .stray _ => .among 0

/-- `w` is a text of the role `r`. -/
def Role.Fits (r : Role) (w : List Char) : Prop := w ∈ r.pattern.texts

/-- `w` is the one spelling of the role `r`. -/
def Role.Spells (r : Role) (w : List Char) : Prop := r.pattern = .spelled (String.ofList w)

/-! ### The classes of characters -/

namespace Lexicon

theorem mem_oneOf {s : Set Char} {w : List Char} : w ∈ oneOf s ↔ ∃ c ∈ s, w = [c] := Iff.rfl

theorem mem_many {s : Set Char} {w : List Char} : w ∈ many s ↔ ∀ c ∈ w, c ∈ s := by
  rw [many, Language.mem_kstar]
  constructor
  · rintro ⟨ws, rfl, hws⟩ c hc
    obtain ⟨v, hv, hcv⟩ := List.mem_flatten.mp hc
    obtain ⟨d, hd, rfl⟩ := hws v hv
    rwa [List.mem_singleton.mp hcv]
  · intro h
    refine ⟨w.map ([·]), by simp [← List.flatMap_def], ?_⟩
    intro v hv
    obtain ⟨c, hc, rfl⟩ := List.mem_map.mp hv
    exact ⟨c, h c hc, rfl⟩

/-- A text that starts with a character of a class. -/
theorem mem_oneOf_mul {s : Set Char} {l : Language Char} {w : List Char} :
    w ∈ oneOf s * l ↔ ∃ c v, w = c :: v ∧ c ∈ s ∧ v ∈ l := by
  rw [Language.mem_mul]
  constructor
  · rintro ⟨_, ⟨c, hc, rfl⟩, v, hv, rfl⟩
    exact ⟨c, v, rfl, hc, hv⟩
  · rintro ⟨c, v, rfl, hc, hv⟩
    exact ⟨[c], ⟨c, hc, rfl⟩, v, hv, rfl⟩

theorem mem_oneOrMore {s : Set Char} {w : List Char} :
    w ∈ oneOrMore s ↔ ∃ c v, w = c :: v ∧ c ∈ s ∧ ∀ d ∈ v, d ∈ s := by
  simp only [oneOrMore, mem_oneOf_mul, mem_many]

theorem mem_digits {c : Char} : c ∈ digits ↔ c.isDigit = true := by
  simp only [digits, Char.isDigit, Bool.and_eq_true, decide_eq_true_eq]
  rfl

theorem mem_letters {c : Char} : c ∈ letters ↔ Piece.startsWord c = true := by
  have hupper : c.isUpper = true ↔ 'A' ≤ c ∧ c ≤ 'Z' := decide_eq_true_iff
  have hlower : c.isLower = true ↔ 'a' ≤ c ∧ c ≤ 'z' :=
    (Bool.and_eq_true_iff ..).trans (and_congr decide_eq_true_iff decide_eq_true_iff)
  have halpha : c.isAlpha = true ↔ c.isUpper = true ∨ c.isLower = true := Bool.or_eq_true_iff ..
  rw [Piece.startsWord, Bool.or_eq_true, beq_iff_eq, halpha, hupper, hlower]
  rfl

theorem mem_letters_union_digits {c : Char} :
    c ∈ letters ∪ digits ↔ Piece.continuesWord c = true := by
  rw [Set.mem_union, mem_letters, mem_digits]
  simp only [Piece.startsWord, Piece.continuesWord, Char.isAlphanum, Bool.or_eq_true]
  tauto

end Lexicon

/-! ### The texts by their shape -/

open Piece in
/-- The texts of the roles by their shape. -/
inductive Lexeme : Role → List Char → Prop
  | mark {c : Char} {kind : Kind} (h : Kind.ofMark? c = some kind) : Lexeme (.matched kind) [c]
  | markEqual {c : Char} {kind : Kind} (h : Kind.ofMarkEqual? c = some kind) :
    Lexeme (.matched kind) [c, '=']
  | newline : Lexeme (.matched .newline) ['\n']
  | keyword {word : String} {kind : Kind} (h : (word, kind) ∈ Kind.keywords) :
    Lexeme (.matched kind) word.toList
  | identifier {c : Char} {w : List Char} (hc : startsWord c) (hw : ∀ d ∈ w, continuesWord d) :
    Lexeme (.matched .identifier) (c :: w)
  | string {body : List Char} (h : ∀ d ∈ body, d ≠ '"') :
    Lexeme (.matched .string) ('"' :: (body ++ ['"']))
  | unclosed {body : List Char} (h : ∀ d ∈ body, d ≠ '"') : Lexeme .unclosed ('"' :: body)
  | whole {c : Char} {w : List Char} (hc : c.isDigit) (hw : ∀ d ∈ w, d.isDigit) :
    Lexeme (.matched .number) (c :: w)
  | fraction {c d : Char} {w v : List Char} (hc : c.isDigit) (hw : ∀ d ∈ w, d.isDigit)
    (hd : d.isDigit) (hv : ∀ d ∈ v, d.isDigit) :
    Lexeme (.matched .number) (c :: (w ++ '.' :: d :: v))
  | comment {body : List Char} (h : ∀ d ∈ body, d ≠ '\n') :
    Lexeme (.matched .comment) ('/' :: '/' :: body)
  | blank {c : Char} {w : List Char} (hc : isBlank c) (hw : ∀ d ∈ w, isBlank d) :
    Lexeme (.matched .blank) (c :: w)

namespace Kind

theorem pattern_of_mark {c : Char} {kind : Kind} (h : ofMark? c = some kind) :
    kind.pattern = .spelled (String.ofList [c]) := by
  unfold ofMark? at h
  split at h <;> cases h <;> rfl

theorem pattern_of_markEqual {c : Char} {kind : Kind} (h : ofMarkEqual? c = some kind) :
    kind.pattern = .spelled (String.ofList [c, '=']) := by
  unfold ofMarkEqual? at h
  split at h <;> cases h <;> rfl

theorem pattern_of_keyword {word : String} {kind : Kind} (h : (word, kind) ∈ keywords) :
    kind.pattern = .spelled word := by
  have hall : ∀ e ∈ keywords, e.2.pattern = .spelled e.1 := by simp [keywords, pattern]
  exact hall _ h

/-- A kind with one spelling is a mark, a line break or a keyword. -/
theorem lexeme_of_pattern {word : String} {kind : Kind} (h : kind.pattern = .spelled word) :
    Lexeme (.matched kind) word.toList := by
  cases kind <;> cases h
  all_goals first
    | exact .mark rfl
    | exact .markEqual rfl
    | exact .newline
    | exact .keyword (by decide)

end Kind

namespace Role

open Lexicon Piece

theorem fits_of_spells {r : Role} {w : List Char} (h : r.Spells w) : r.Fits w := by
  rw [Fits, show r.pattern = _ from h, Pattern.texts, String.toList_ofList]
  rfl

theorem spells_keyword {word : String} {kind : Kind} (h : (word, kind) ∈ Kind.keywords) :
    (matched kind).Spells word.toList := by
  rw [Spells, String.ofList_toList]
  exact Kind.pattern_of_keyword h

theorem fits_identifier_iff {w : List Char} :
    (matched .identifier).Fits w ↔
      ∃ c v, w = c :: v ∧ startsWord c = true ∧ ∀ d ∈ v, continuesWord d = true := by
  simp only [Fits, pattern, Kind.pattern, Pattern.texts, mem_oneOf_mul, mem_many, mem_letters,
    mem_letters_union_digits]

theorem fits_unclosed_iff {w : List Char} :
    unclosed.Fits w ↔ ∃ body, w = '"' :: body ∧ ∀ d ∈ body, d ≠ '"' := by
  simp only [Fits, pattern, Pattern.texts, mem_oneOf_mul, mem_many, Set.mem_singleton_iff,
    Set.mem_compl_iff]
  exact ⟨fun ⟨_, v, h, hc, hv⟩ => ⟨v, hc ▸ h, hv⟩, fun ⟨v, h, hv⟩ => ⟨_, v, h, rfl, hv⟩⟩

theorem fits_string_iff {w : List Char} :
    (matched .string).Fits w ↔
      ∃ body, w = '"' :: (body ++ ['"']) ∧ ∀ d ∈ body, d ≠ '"' := by
  simp only [Fits, pattern, Kind.pattern, Pattern.texts, mul_assoc, Language.mem_mul, mem_many,
    mem_oneOf, Set.mem_singleton_iff, Set.mem_compl_iff]
  constructor
  · rintro ⟨_, ⟨_, rfl, rfl⟩, _, ⟨body, hbody, _, ⟨_, rfl, rfl⟩, rfl⟩, rfl⟩
    exact ⟨body, rfl, hbody⟩
  · rintro ⟨body, rfl, hbody⟩
    exact ⟨_, ⟨_, rfl, rfl⟩, _, ⟨body, hbody, _, ⟨_, rfl, rfl⟩, rfl⟩, rfl⟩

theorem fits_comment_iff {w : List Char} :
    (matched .comment).Fits w ↔ ∃ body, w = '/' :: '/' :: body ∧ ∀ d ∈ body, d ≠ '\n' := by
  simp only [Fits, pattern, Kind.pattern, Pattern.texts, Language.mem_mul, mem_many,
    Set.mem_singleton_iff, Set.mem_compl_iff]
  constructor
  · rintro ⟨_, rfl, body, hbody, rfl⟩
    exact ⟨body, rfl, hbody⟩
  · rintro ⟨body, rfl, hbody⟩
    exact ⟨_, rfl, body, hbody, rfl⟩

theorem fits_blank_iff {w : List Char} :
    (matched .blank).Fits w ↔
      ∃ c v, w = c :: v ∧ isBlank c = true ∧ ∀ d ∈ v, isBlank d = true := by
  have hblank {c : Char} : c ∈ ({' ', '\t', '\r'} : Set Char) ↔ isBlank c = true := by
    simp [isBlank, or_assoc]
  simp only [Fits, pattern, Kind.pattern, Pattern.texts, mem_oneOrMore, hblank]

theorem fits_number_iff {w : List Char} :
    (matched .number).Fits w ↔
      ∃ c v, c.isDigit = true ∧ (∀ d ∈ v, d.isDigit = true) ∧
        (w = c :: v ∨ ∃ d u, w = c :: (v ++ '.' :: d :: u) ∧ d.isDigit = true ∧
          ∀ e ∈ u, e.isDigit = true) := by
  simp only [Fits, pattern, Kind.pattern, Pattern.texts, mul_add, mul_one, Language.mem_add,
    Language.mem_mul, mem_oneOrMore, mem_oneOf, mem_digits, Set.mem_singleton_iff]
  constructor
  · rintro (⟨c, v, rfl, hc, hv⟩ |
      ⟨_, ⟨c, v, rfl, hc, hv⟩, _, ⟨_, ⟨_, rfl, rfl⟩, _, ⟨d, u, rfl, hd, hu⟩, rfl⟩, rfl⟩)
    · exact ⟨c, v, hc, hv, .inl rfl⟩
    · exact ⟨c, v, hc, hv, .inr ⟨d, u, rfl, hd, hu⟩⟩
  · rintro ⟨c, v, hc, hv, rfl | ⟨d, u, rfl, hd, hu⟩⟩
    · exact .inl ⟨c, v, rfl, hc, hv⟩
    · exact .inr ⟨_, ⟨c, v, rfl, hc, hv⟩, _,
        ⟨_, ⟨_, rfl, rfl⟩, _, ⟨d, u, rfl, hd, hu⟩, rfl⟩, rfl⟩

/-- Nothing is the end of the input, or a stray character. -/
theorem not_fits_eof {w : List Char} : ¬ (matched .eof).Fits w := Language.notMem_zero w

theorem not_fits_stray {c : Char} {w : List Char} : ¬ (stray c).Fits w := Language.notMem_zero w

/-- **The texts of a role by the table are those by their shape.** -/
theorem fits_iff_lexeme {r : Role} {w : List Char} : r.Fits w ↔ Lexeme r w := by
  constructor
  · intro h
    cases r with
    | stray c => exact absurd h not_fits_stray
    | unclosed =>
      obtain ⟨body, rfl, hbody⟩ := fits_unclosed_iff.mp h
      exact .unclosed hbody
    | matched kind =>
      cases hk : kind.pattern with
      | spelled word =>
        have hw : w = word.toList := by
          rw [Fits, show (matched kind).pattern = _ from hk] at h
          exact h
        exact hw ▸ Kind.lexeme_of_pattern hk
      | among texts =>
        cases kind with
        | identifier =>
          obtain ⟨c, v, rfl, hc, hv⟩ := fits_identifier_iff.mp h
          exact .identifier hc hv
        | string =>
          obtain ⟨body, rfl, hbody⟩ := fits_string_iff.mp h
          exact .string hbody
        | number =>
          obtain ⟨c, v, hc, hv, rfl | ⟨d, u, rfl, hd, hu⟩⟩ := fits_number_iff.mp h
          · exact .whole hc hv
          · exact .fraction hc hv hd hu
        | comment =>
          obtain ⟨body, rfl, hbody⟩ := fits_comment_iff.mp h
          exact .comment hbody
        | blank =>
          obtain ⟨c, v, rfl, hc, hv⟩ := fits_blank_iff.mp h
          exact .blank hc hv
        | eof => exact absurd h not_fits_eof
        | _ => cases hk
  · intro h
    cases h with
    | mark h => exact fits_of_spells (Kind.pattern_of_mark h)
    | markEqual h => exact fits_of_spells (Kind.pattern_of_markEqual h)
    | newline => exact fits_of_spells rfl
    | keyword h => exact fits_of_spells (spells_keyword h)
    | identifier hc hw => exact fits_identifier_iff.mpr ⟨_, _, rfl, hc, hw⟩
    | string h => exact fits_string_iff.mpr ⟨_, rfl, h⟩
    | unclosed h => exact fits_unclosed_iff.mpr ⟨_, rfl, h⟩
    | whole hc hw => exact fits_number_iff.mpr ⟨_, _, hc, hw, .inl rfl⟩
    | fraction hc hw hd hv => exact fits_number_iff.mpr ⟨_, _, hc, hw, .inr ⟨_, _, rfl, hd, hv⟩⟩
    | comment h => exact fits_comment_iff.mpr ⟨_, rfl, h⟩
    | blank hc hw => exact fits_blank_iff.mpr ⟨_, _, rfl, hc, hw⟩

end Role
end LoxLang
