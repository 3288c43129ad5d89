import ExprCore.Double.Shape

/-!
Decimal numerals: an optional sign, digits with an optional point, and an optional exponent.
-/

namespace ExprCore.Numeral
set_option autoImplicit false

/-- A leading sign, read as "negative or not", and the rest of the text. -/
def sign : List Char → Bool × List Char
  | '-' :: s => (true, s)
  | '+' :: s => (false, s)
  | s => (false, s)

def ofDigits (s : List Char) : Nat :=
  s.foldl (fun n c => 10 * n + (c.toNat - '0'.toNat)) 0

def isDigits (s : List Char) : Bool := !s.isEmpty && s.all Char.isDigit

def int? (s : List Char) : Option Int :=
  let (negative, digits) := sign s
  if isDigits digits then
    some (if negative then -(ofDigits digits : Int) else ofDigits digits)
  else none

/-- Reads a natural number below `bound`: digits with an optional plus sign. -/
def natBelow? (bound : Nat) (s : List Char) : Option Nat :=
  let digits := match s with
    | '+' :: s => s
    | s => s
  if isDigits digits && ofDigits digits < bound then some (ofDigits digits) else none

structure Decimal where
  negative : Bool
  whole : List Char
  fraction : List Char
  exponent : Int

def exponent? : List Char → Option Int
  | [] => some 0
  | 'e' :: s => int? s
  | 'E' :: s => int? s
  | _ => none

/-- Reads a decimal numeral. A digit must stand before the point or after it. -/
def decimal? (s : List Char) : Option Decimal := do
  let (negative, s) := sign s
  let whole := s.takeWhile Char.isDigit
  let rest := s.dropWhile Char.isDigit
  let (fraction, rest) := match rest with
    | '.' :: r => (r.takeWhile Char.isDigit, r.dropWhile Char.isDigit)
    | r => ([], r)
  guard !(whole.isEmpty && fraction.isEmpty)
  let exponent ← exponent? rest
  pure ⟨negative, whole, fraction, exponent⟩

/-- The floating-point number nearest to a numeral. An exponent too large or too small for the
digits is cut back to one that still gives infinity or zero. -/
def Decimal.toFloat (d : Decimal) : Float :=
  let digits := d.whole ++ d.fraction
  let exponent := d.exponent - d.fraction.length
  let exponent := max (min exponent 400) (-(digits.length + 400 : Int))
  Double.ofQuotient d.negative (ofDigits digits * Nat.pow 10 exponent.toNat)
    (Nat.pow 10 (-exponent).toNat)

/-- Reads a floating-point number: a decimal numeral, or a name of infinity or of "not a number"
in any case. -/
def double? (s : List Char) : Option Float :=
  match decimal? s with
  | some d => some d.toFloat
  | none =>
    let (negative, name) := sign s
    match String.ofList (name.map Char.toLower) with
    | "inf" | "infinity" => some (if negative then -1.0 / 0.0 else 1.0 / 0.0)
    | "nan" => some (0.0 / 0.0)
    | _ => none

end ExprCore.Numeral
