import ExprCore.Double.Shape

/-!
Conversions between floating-point numbers and integers.
-/

namespace ExprCore.Double
set_option autoImplicit false

def ofInt (n : Int) : Float := ofQuotient (n < 0) n.natAbs 1

def smallest : Int := -0x8000000000000000

def largest : Int := 0x7fffffffffffffff

/-- The integer part, cut back to the range of 64 bits. What is not a number gives 0. -/
def truncate (x : Float) : Int64 :=
  match shape x with
  | .nan => 0
  | .infinite negative => Int64.ofInt (if negative then smallest else largest)
  | .finite negative m e =>
    let magnitude : Int := (m <<< e.toNat >>> (-e).toNat : Nat)
    Int64.ofInt (max smallest (min largest (if negative then -magnitude else magnitude)))

end ExprCore.Double
