import ExprCore.Expr.Pass

/-!
Resolution of free names. A name becomes the slot that its innermost binding gives it, unless the
binding lies too many levels of function nesting out; such a name stays free until the function
around it is made, when its body is resolved again against the live frames.
-/

namespace ExprCore
set_option autoImplicit false

namespace Expr

/-- The slot `name` of the frame that a placeholder stands for. -/
def member? (scope : Scope) (name : String) : Expr → Option Expr
  | .scopeRef hops => (scope.lookupAt? hops name).map .var
  | _ => none

def resolveNode? (maxLevel : Nat) (scope : Scope) : Expr → Option Expr
  | .name free =>
    match scope.lookup? free with
    | some binding => if scope.level - binding.level ≤ maxLevel then some (.var binding) else none
    | none => none
  | .member .classMember object field => object.member? scope field
  | _ => none

/-- Resolution, which binds names across at most `maxLevel` levels of function nesting. -/
def resolution (maxLevel : Nat) : Pass Scope where
  enterBlock := Scope.block
  enterFunction := Scope.function
  rule scope e := .replace e (e.resolveNode? maxLevel scope)

def resolve (maxLevel : Nat) (scope : Scope) (e : Expr) : Revised Expr :=
  (resolution maxLevel).revise scope e

end Expr

end ExprCore
