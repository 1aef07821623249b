import Mathlib.Algebra.Field.Rat
import Mathlib.Data.List.Basic

/-! Floating-point numbers as formulas and numeric filters use them: decimal texts and arithmetic. -/
namespace Hoglet.Query

/-- A number format, which may do without infinities. -/
structure Floats (F : Type) where
  /-- The number closest to `digits * 10 ^ exponent`. -/
  ofDecimal : Nat → Int → F
  infinity : Option F
  nan : Option F
  zero : F
  neg : F → F
  add : F → F → F
  sub : F → F → F
  mul : F → F → F
  div : F → F → F
  isZero : F → Bool
  isFinite : F → Bool

namespace Floats
variable {F : Type} (N : Floats F)

/-- Every number as it is, and no others. -/
def exact : Floats ℚ where
  ofDecimal digits exponent := digits * (10 : ℚ) ^ exponent
  infinity := none
  nan := none
  zero := 0
  neg a := -a
  add a b := a + b
  sub a b := a - b
  mul a b := a * b
  div a b := a / b
  isZero a := a = 0
  isFinite _ := true

/-- A sign, where there is one, and what it signs. -/
def signed (text : List Char) : Bool × List Char :=
  match text with
  | '-' :: rest => (true, rest)
  | '+' :: rest => (false, rest)
  | rest => (false, rest)

/-- The exponent at the end of a number. -/
def exponent : List Char → Option Int
  | [] => some 0
  | mark :: rest =>
    if mark = 'e' ∨ mark = 'E' then
      let (negative, digits) := signed rest
      if digits ≠ [] ∧ digits.all Char.isDigit then
        some (if negative then -Nat.ofDigitChars 10 digits 0 else Nat.ofDigitChars 10 digits 0)
      else none
    else none

/-- The digits after a point, and what follows them. -/
def fraction (text : List Char) : List Char × List Char :=
  match text with
  | '.' :: rest => (rest.takeWhile Char.isDigit, rest.dropWhile Char.isDigit)
  | rest => ([], rest)

def parseNumber (text : List Char) : Option F :=
  let whole := text.takeWhile Char.isDigit
  let (fraction, rest) := fraction (text.dropWhile Char.isDigit)
  if whole = [] ∧ fraction = [] then none
  else (exponent rest).map fun e => N.ofDecimal (Nat.ofDigitChars 10 (whole ++ fraction) 0) (e - fraction.length)

def parseUnsigned (text : List Char) : Option F :=
  let word := String.ofList (text.map Char.toLower)
  if word = "inf" ∨ word = "infinity" then N.infinity
  else if word = "nan" then N.nan
  else N.parseNumber text

/-- `str::parse::<f64>`. -/
def parse (text : List Char) : Option F :=
  let (negative, rest) := signed text
  if negative then (N.parseUnsigned rest).map N.neg else N.parseUnsigned rest

end Floats
end Hoglet.Query
