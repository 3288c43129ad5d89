/-!
The shape of a 64-bit floating-point number, and the number nearest to a quotient. A finite number
is a sign, a mantissa below `2 ^ 53` and an exponent of two.
-/

namespace ExprCore.Double
set_option autoImplicit false

inductive Shape where
  | nan
  | infinite (negative : Bool)
  /-- The number `mantissa * 2 ^ exponent`, or its opposite. -/
  | finite (negative : Bool) (mantissa : Nat) (exponent : Int)

def Shape.ofBits (bits : Nat) : Shape :=
  let negative := decide (0x8000000000000000 ≤ bits)
  let biased : Nat := bits >>> 52 % 0x800
  let fraction : Nat := bits % 0x10000000000000
  if biased = 2047 then
    if fraction = 0 then .infinite negative else .nan
  else if biased = 0 then .finite negative fraction (-1074)
  else .finite negative (fraction + 0x10000000000000) (biased - 1075)

def shape (x : Float) : Shape := .ofBits x.toBits.toNat

/-- A quotient rounded to the nearest integer, a half to the even one. -/
def roundQuotient (num den : Nat) : Nat :=
  let q := num / den
  let r := num % den
  if den < 2 * r || (2 * r = den && q % 2 = 1) then q + 1 else q

/-- The bits of the non-negative number nearest to `num / den`, for a positive `den`. A quotient
halfway between two numbers goes to the one with even mantissa, and one beyond the largest number
to infinity. -/
def nearestBits (num den : Nat) : Nat :=
  if num = 0 then 0 else
  let guess : Int := (num.log2 : Int) - den.log2
  let top := if num <<< (-guess).toNat < den <<< guess.toNat then guess - 1 else guess
  let exponent := max (-1074) (top - 52)
  let mantissa := roundQuotient (num <<< (-exponent).toNat) (den <<< exponent.toNat)
  min ((exponent + 1074).toNat <<< 52 + mantissa) (2047 <<< 52)

def ofQuotient (negative : Bool) (num den : Nat) : Float :=
  Float.ofBits (UInt64.ofNat (nearestBits num den + if negative then 0x8000000000000000 else 0))

end ExprCore.Double
