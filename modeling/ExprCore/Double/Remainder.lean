import ExprCore.Double.Shape

/-!
The exact remainder of two floating-point numbers. It has the sign of the dividend and a magnitude
below that of the divisor.
-/

namespace ExprCore.Double
set_option autoImplicit false

def notANumber : Float := 0.0 / 0.0

def remainder (x y : Float) : Float :=
  match shape x, shape y with
  | .finite negative m e, .finite _ n f =>
    if n = 0 then notANumber else
    let low := min e f
    let rest := m <<< (e - low).toNat % n <<< (f - low).toNat
    ofQuotient negative (rest <<< low.toNat) (1 <<< (-low).toNat)
  | .finite .., .infinite _ => x
  | _, _ => notANumber

end ExprCore.Double
