import ExprCore.Proofs.SameOutcome

/-!
Optimization of functions whose bodies are not resolved to the last name. The names that are left are
bound when the function is made, and may give the nodes above them other types than those that
simplification saw. Where the types stay, the functions that are made do the same.
-/

namespace ExprCore
set_option autoImplicit false

open Filter

namespace Pairing

variable {P : Pairing} {m : Machine} {m' : Nat → Machine} {w : World P.known} {env : Env}

end Pairing

namespace Sample

def sum : Expr :=
  .operator .binary (.arith .add)
    [.name "x", .operator .binary (.arith .add) [.literal (.int 1) .int, .literal (.int 2) .int]]

end Sample

namespace Sample

end Sample

end ExprCore
