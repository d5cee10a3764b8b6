import LoxLang.Number

/-! # Values

What an expression evaluates to and what a literal denotes: `nil`, a boolean, a
number or a string.  The language's own equality is not equality of Lean values:
it identifies the two zeros and every not-a-number with itself.
-/
namespace LoxLang

/-- Whether two numbers are equal in the language: equal as floats, or both not a
number. -/
def Number.same (x y : Float) : Bool := x == y || (x.isNaN && y.isNaN)

/-- A value of the language. -/
inductive Value where
  /-- The absence of a value. -/
  | nil
  /-- A truth value. -/
  | bool (b : Bool)
  /-- A binary64 number. -/
  | number (x : Float)
  /-- A text. -/
  | string (s : String)
deriving Repr, DecidableEq, Inhabited

namespace Value

/-- Whether a value counts as true: all but `nil` and `false` do. -/
def truthy : Value → Bool
  | nil => false
  | bool b => b
  | number _ => true
  | string _ => true

/-- Equality of values in the language.  Values of different sorts differ. -/
def equal : Value → Value → Bool
  | nil, nil => true
  | bool a, bool b => a == b
  | number x, number y => Number.same x y
  | string s, string t => s == t
  | _, _ => false

/-- The text that `print` writes for a value. -/
def text : Value → String
  | nil => "nil"
  | bool true => "true"
  | bool false => "false"
  | number x => Number.text x
  | string s => s

end Value
end LoxLang
