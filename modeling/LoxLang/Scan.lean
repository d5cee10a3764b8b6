import LoxLang.Piece
import LoxLang.SyntaxError

/-! # Scanning

A counter holds the line that scanning has come to, and each piece of a source is
given the line on which it ends.  The pieces that are tokens become the scanned
tokens, closed by one that marks the end of the input, and each of the others that
is a fault becomes an error; scanning never stops early.
-/
namespace LoxLang

namespace Piece

/-- The line on which a piece ends, when it starts on `line`.  Only line breaks and
strings lead to another line. -/
def endLine (line : Nat) (p : Piece) : Nat :=
  match p.role with
  | .matched .newline => line + 1
  | .matched .string | .unclosed => line + p.text.count '\n'
  | _ => line

/-- The line on which the last piece ends, when the first starts on `line`. -/
def lastLine (line : Nat) (ps : List Piece) : Nat := ps.foldl endLine line

/-- The pieces with the line on which each ends, when the first starts on
`line`. -/
def lined (line : Nat) : List Piece → List (Nat × Piece)
  | [] => []
  | p :: ps => (p.endLine line, p) :: lined (p.endLine line) ps

theorem lined_append (line : Nat) (ps qs : List Piece) :
    lined line (ps ++ qs) = lined line ps ++ lined (lastLine line ps) qs := by
  induction ps generalizing line with
  | nil => rfl
  | cons p ps ih => exact congrArg ((p.endLine line, p) :: ·) (ih (p.endLine line))

/-- The value that a text of the given kind denotes. -/
def literal? (kind : Kind) (text : List Char) : Option Literal :=
  match kind with
  | .number => some (.number (Number.ofText text))
  | .string => some (.string (String.ofList (text.drop 1).dropLast))
  | _ => none

/-- The token of a piece that ends on `line`. -/
def token? : Nat × Piece → Option Token
  | (line, ⟨.matched kind, text⟩) =>
    if kind.silent then none
    else some ⟨kind, String.ofList text, literal? kind text, line⟩
  | _ => none

/-- The error of a piece that ends on `line`. -/
def error? : Nat × Piece → Option SyntaxError
  | (line, ⟨.stray c, _⟩) => some (.strayCharacter c line)
  | (line, ⟨.unclosed, _⟩) => some (.unclosedString line)
  | _ => none

end Piece

/-- What scanning makes of a source. -/
structure Scan where
  /-- The tokens, in the order of the source, with the end of the input last. -/
  tokens : List Token
  /-- The errors, in the order of the source. -/
  errors : List SyntaxError
deriving Repr, DecidableEq

/-- Scans the characters of a source. -/
def Scan.ofChars (cs : List Char) : Scan :=
  let pieces := Piece.pieces cs
  let lined := Piece.lined 1 pieces
  { tokens := lined.filterMap Piece.token? ++ [Token.eof (Piece.lastLine 1 pieces)]
    errors := lined.filterMap Piece.error? }

/-- Scans a source. -/
def scan (source : String) : Scan := Scan.ofChars source.toList

end LoxLang
