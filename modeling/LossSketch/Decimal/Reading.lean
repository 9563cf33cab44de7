/-!
# Numbers in text

* `integer?` reads an integer: digits, perhaps behind a sign.
* `natural?` reads a natural number below a limit: digits, perhaps behind a plus sign.
* `float?` reads a floating-point number: digits with at most one point among them, perhaps behind a
  sign and in front of an exponent, or the words `inf`, `infinity` and `nan` in any case.
-/

namespace LossSketch

/-- The number that digits spell; of no digits, zero. -/
def digitsValue (digits : List Char) : Nat :=
  digits.foldl (fun n c => 10 * n + (c.toNat - '0'.toNat)) 0

/-- Whether a number is negative, and its text without the sign. -/
def unsigned : List Char → Bool × List Char
  | '-' :: rest => (true, rest)
  | '+' :: rest => (false, rest)
  | text => (false, text)

/-- An integer. -/
def integer? (text : List Char) : Option Int :=
  let (negative, digits) := unsigned text
  if digits ≠ [] ∧ digits.all Char.isDigit then
    some (if negative then -(digitsValue digits : Int) else digitsValue digits)
  else none

/-- A natural number below a limit. A minus sign is refused even in front of zero. -/
def natural? (limit : Nat) (text : String) : Option Nat :=
  match text.toList with
  | '-' :: _ => none
  | text => (integer? text).bind fun n => if n < limit then some n.toNat else none

/-- The floating-point number nearest to `mantissa * 10 ^ exponent`. -/
def nearestFloat (mantissa : Nat) (exponent : Int) : Float :=
  if mantissa = 0 then 0
  else if 400 < exponent then 1 / 0
  else if exponent < -(400 + (toString mantissa).length : Int) then 0
  else if 0 ≤ exponent then Float.ofScientific mantissa false exponent.toNat
  else Float.ofScientific mantissa true exponent.natAbs

/-- The exponent of a number, from the text behind its digits. -/
def exponent? : List Char → Option Int
  | [] => some 0
  | e :: rest => if e = 'e' ∨ e = 'E' then integer? rest else none

/-- The magnitude of a finite number. -/
def magnitude? (text : List Char) : Option Float :=
  let whole := text.takeWhile Char.isDigit
  let (fraction, rest) := match text.dropWhile Char.isDigit with
    | '.' :: rest => (rest.takeWhile Char.isDigit, rest.dropWhile Char.isDigit)
    | rest => ([], rest)
  if whole = [] ∧ fraction = [] then none
  else (exponent? rest).map fun exponent =>
    nearestFloat (digitsValue (whole ++ fraction)) (exponent - fraction.length)

/-- A floating-point number. -/
def float? (text : String) : Option Float :=
  let (negative, rest) := unsigned text.toList
  let word := rest.map Char.toLower
  let magnitude :=
    if word = "inf".toList ∨ word = "infinity".toList then some (1 / 0)
    else if word = "nan".toList then some (0 / 0)
    else magnitude? rest
  magnitude.map fun x => if negative then -x else x

end LossSketch
