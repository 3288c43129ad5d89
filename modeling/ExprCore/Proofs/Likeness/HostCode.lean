import ExprCore.Host.Classes
import ExprCore.Proofs.Likeness.Stores

/-!
Host code that treats containers alike. The native functions and the host classes that every program
finds look at numbers, texts and functions only; a container they pass on.
-/

namespace ExprCore
set_option autoImplicit false

variable {strict : Bool} {ρ : Links}

namespace HostClass

end HostClass

namespace Point

variable {args args' : List Value}

end Point

end ExprCore
