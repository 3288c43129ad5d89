import ExprCore.Proofs.Likeness.Pruning
import ExprCore.Proofs.Likeness.Skeletons

/-!
Trees beside what simplification makes of them, both bound in the same passes. Simplification decides
on the types that nodes have before the passes, so that it is sound as long as the passes leave a
replacement with the type of what it replaces.
-/

namespace ExprCore
set_option autoImplicit false

open Filter

namespace Correspondence

variable {C : Correspondence} {w : C.World} {host : Host} {n : Nat} {env : Env}
  {truth : Value → Bool} {stages : Expr.Stages} {f : Expr → Expr} {x z : Expr}

variable {a b c d : Expr} {v : Value} {t t' u : Ty} {p : Bool}

end Correspondence

end ExprCore
