import ExprCore.Expr

/-!
The static type of an expression, and whether it is a constant. Both are read off the tree: the
type of a literal is stored in it, and every other node is typed by its children. A node whose
operator rejects the types of its operands has type `any`.
-/

namespace ExprCore.Expr
set_option autoImplicit false

def sliceType : Ty → Ty
  | .str | .buffer => .str
  | .list elem => .list elem
  | .array elem => .array elem
  | _ => .any

def memberType (kind : MemberKind) (container : Ty) : Ty :=
  match kind, container with
  | .mapEntry, .map value => value
  | _, _ => .any

mutual

def type : Expr → Ty
  | .literal _ t => t
  | .name _ | .scopeRef _ => .any
  | .var binding => binding.type
  | .operator _ op operands =>
    match op.infer (types operands) with
    | .ok t => t
    | .error _ => .any
  | .logical .. | .instanceOf .. => .bool
  | .conditional _ thenBranch elseBranch => thenBranch.type.union elseBranch.type
  | .sequence items => lastType items
  | .before first _ => first.type
  | .cast target _ => target
  | .assign _ target _ | .step _ target => target.type
  | .compound op target value result =>
    match op.infer [target.type, value.type] with
    | .ok _ => result.getD target.type
    | .error _ => .any
  | .index base _ => base.type.elementType?.getD .any
  | .slice base _ _ => sliceType base.type
  | .member kind object _ => memberType kind object.type
  | .staticField .. | .methodCall .. | .staticCall .. => .any
  | .new className _ => .host className
  | .apply callee _ => callee.type.returnType?.getD .any
  | .lambda signature _ => .function signature.ret
  | .block _ _ ret => ret
  | .earlyReturn _ | .loop .. | .raise _ => .void
  | .arrayLiteral elem _ | .arrayAlloc elem _ => .array elem
  | .listLiteral elem _ | .extendList _ elem _ => .list elem
  | .mapLiteral value _ | .extendMap _ value _ => .map value
  | .tryCatch body _ handler => body.type.union handler.type

def types : List Expr → List Ty
  | [] => []
  | e :: es => e.type :: types es

/-- The type of the last of several expressions, `void` if there is none. -/
def lastType : List Expr → Ty
  | [] => .void
  | [e] => e.type
  | _ :: es => lastType es

end

mutual

/-- True if a node and all that it evaluates are compile-time constants. Nodes that make a
container are never constant, since one container would be shared by every evaluation. -/
def isConstant : Expr → Bool
  | .literal .. => true
  | .operator _ op operands => op.isPure && allConstant operands
  | .logical _ lhs rhs => lhs.isConstant && rhs.isConstant
  | .conditional cond thenBranch elseBranch =>
    cond.isConstant && thenBranch.isConstant && elseBranch.isConstant
  | .sequence items => allConstant items
  | .before first second => first.isConstant && second.isConstant
  | .cast _ operand | .instanceOf operand _ => operand.isConstant
  | _ => false

def allConstant : List Expr → Bool
  | [] => true
  | e :: es => e.isConstant && allConstant es

end

@[simp] theorem types_eq_map (es : List Expr) : types es = es.map type := by
  induction es with
  | nil => rfl
  | cons e es ih => simp [types, ih]

@[simp] theorem allConstant_eq_all (es : List Expr) : allConstant es = es.all isConstant := by
  induction es with
  | nil => rfl
  | cons e es ih => simp [allConstant, ih]

end ExprCore.Expr
