import ExprCore.Expr

/-!
The number of nodes of a tree, bodies of functions and blocks included.
-/

namespace ExprCore.Expr
set_option autoImplicit false

mutual

def size : Expr → Nat
  | .literal .. | .name _ | .var _ | .scopeRef _ | .staticField .. => 1
  | .operator _ _ operands => sizes operands + 1
  | .logical _ lhs rhs => lhs.size + rhs.size + 1
  | .conditional cond thenBranch elseBranch => cond.size + thenBranch.size + elseBranch.size + 1
  | .sequence items => sizes items + 1
  | .before first second => first.size + second.size + 1
  | .cast _ operand | .instanceOf operand _ => operand.size + 1
  | .assign _ target value | .compound _ target value _ => target.size + value.size + 1
  | .step _ target => target.size + 1
  | .index base key => base.size + key.size + 1
  | .slice base lo hi => base.size + lo.size + hi.size + 1
  | .member _ object _ => object.size + 1
  | .methodCall receiver _ args => receiver.size + sizes args + 1
  | .staticCall _ _ args | .new _ args => sizes args + 1
  | .apply callee args => callee.size + sizes args + 1
  | .lambda _ body => body.size + 1
  | .block _ body _ => sizes body + 1
  | .earlyReturn value => value.size + 1
  | .arrayLiteral _ items | .listLiteral _ items => sizes items + 1
  | .arrayAlloc _ length => length.size + 1
  | .extendList list _ items => list.size + sizes items + 1
  | .mapLiteral _ entries => entrySizes entries + 1
  | .extendMap map _ entries => map.size + entrySizes entries + 1
  | .loop cond body => cond.size + body.size + 1
  | .tryCatch body binding handler => body.size + binding.size + handler.size + 1
  | .raise message => message.size + 1

def sizes : List Expr → Nat
  | [] => 0
  | e :: es => e.size + sizes es

def entrySizes : List (Expr × Expr) → Nat
  | [] => 0
  | (key, value) :: entries => key.size + value.size + entrySizes entries

end

end ExprCore.Expr
