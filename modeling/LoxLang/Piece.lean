import LoxLang.Token

/-! # Cutting a source into pieces

A source is cut from left to right into non-empty pieces.  Each is the longest
start of what remains that is a token, a comment, a line break or a run of
blanks; failing that, a string that is still open at the end of the source, or a
single stray character.  Nothing is lost: the texts of the pieces make up the
source (`flatMap_text_pieces`).
-/
namespace LoxLang

/-- What a piece of the source was recognised as. -/
inductive Role where
  /-- Text of a kind. -/
  | matched (kind : Kind)
  /-- A string that is still open at the end of the source. -/
  | unclosed
  /-- A character that starts nothing. -/
  | stray (c : Char)
deriving Repr, DecidableEq

/-- A piece of the source. -/
structure Piece where
  /-- What it was recognised as. -/
  role : Role
  /-- Its characters. -/
  text : List Char
deriving Repr, DecidableEq

namespace Piece

/-- How many characters at the start of `cs` satisfy `p`. -/
def run (p : Char → Bool) (cs : List Char) : Nat := (cs.takeWhile p).length

/-- Spaces, tabs and carriage returns. -/
def isBlank (c : Char) : Bool := c == ' ' || c == '\t' || c == '\r'

/-- What a word may start with: an ASCII letter or an underscore. -/
def startsWord (c : Char) : Bool := c.isAlpha || c == '_'

/-- What a word may go on with: an ASCII letter, a digit or an underscore. -/
def continuesWord (c : Char) : Bool := c.isAlphanum || c == '_'

/-- How many characters of `cs` belong to a number that has begun with a digit
before them.  A point belongs to it only if a digit follows. -/
def numberTail (cs : List Char) : Nat :=
  let whole := run Char.isDigit cs
  match cs.drop whole with
  | '.' :: d :: more => if d.isDigit then whole + 2 + run Char.isDigit more else whole
  | _ => whole

/-- What the piece that starts with `c` is, and how many characters of `cs`, the
characters after `c`, it takes. -/
def lead (c : Char) (cs : List Char) : Role × Nat :=
  if c = '"' then
    let body := run (· != '"') cs
    if body < cs.length then (.matched .string, body + 1) else (.unclosed, body)
  else if c = '/' ∧ cs.head? = some '/' then (.matched .comment, run (· != '\n') cs)
  else if c = '\n' then (.matched .newline, 0)
  else if isBlank c then (.matched .blank, run isBlank cs)
  else if c.isDigit then (.matched .number, numberTail cs)
  else if startsWord c then
    let tail := run continuesWord cs
    (.matched (.ofWord (String.ofList (c :: cs.take tail))), tail)
  else
    match Kind.ofMarkEqual? c, cs.head? with
    | some kind, some '=' => (.matched kind, 1)
    | _, _ =>
      match Kind.ofMark? c with
      | some kind => (.matched kind, 0)
      | none => (.stray c, 0)

/-- The piece that starts with `c`, before the characters `cs`. -/
def first (c : Char) (cs : List Char) : Piece :=
  ⟨(lead c cs).1, c :: cs.take (lead c cs).2⟩

/-- The pieces of a source. -/
def pieces : List Char → List Piece
  | [] => []
  | c :: cs => first c cs :: pieces (cs.drop (lead c cs).2)
termination_by cs => cs.length
decreasing_by
  rw [List.length_drop, List.length_cons]
  omega

/-! ### Nothing is lost -/

theorem text_first_append_drop (c : Char) (cs : List Char) :
    (first c cs).text ++ cs.drop (lead c cs).2 = c :: cs := by
  simp [first]

/-- **The texts of the pieces make up the source.** -/
theorem flatMap_text_pieces (cs : List Char) : (pieces cs).flatMap text = cs := by
  fun_induction pieces cs with
  | case1 => rfl
  | case2 c cs ih => rw [List.flatMap_cons, ih, text_first_append_drop]

theorem text_ne_nil_of_mem_pieces {cs : List Char} {p : Piece} (h : p ∈ pieces cs) :
    p.text ≠ [] := by
  fun_induction pieces cs with
  | case1 => cases h
  | case2 c cs ih =>
    rcases List.mem_cons.mp h with rfl | h
    · simp [first]
    · exact ih h

end Piece
end LoxLang
