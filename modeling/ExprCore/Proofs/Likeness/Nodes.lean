import ExprCore.Proofs.Likeness.Places

/-!
Evaluation of the remaining nodes, side by side: assignments, calls, blocks, containers and control
flow.
-/

namespace ExprCore
set_option autoImplicit false

open Correspondence (Runs runs_arith runs_display)

namespace Pairing

variable {P : Pairing} {w : World P.known} {m : Machine} {m' : Nat → Machine} {env : Env}
  {e e' a a' b b' : Expr} {es es' : List Expr} {v v' : Value}

variable {args args' : List Value}

end Pairing

end ExprCore
