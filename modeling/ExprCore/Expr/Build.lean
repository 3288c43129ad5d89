import ExprCore.Cast
import ExprCore.Expr.Typing

/-!
The nodes that cannot be built from all operands: an operator must accept the types of its
operands, and an assignment must have an assignable target. All other nodes are built by the
constructors of the tree.
-/

namespace ExprCore.Expr
set_option autoImplicit false

/-- A literal with the runtime type of its value. -/
def ofValue (v : Value) : Expr := .literal v v.ty

def typedLiteral (v : Value) (t : Ty) : Except EvalError Expr :=
  (t.cast v).map fun w => .literal w t

def null : Expr := ofValue .null

def checkedOperator (form : OperatorForm) (op : Operation) (operands : List Expr) :
    Except EvalError Expr :=
  (op.infer (types operands)).map fun _ => .operator form op operands

def unary (op : Operation) (operand : Expr) : Except EvalError Expr :=
  checkedOperator .unary op [operand]

def binary (op : Operation) (lhs rhs : Expr) : Except EvalError Expr :=
  checkedOperator .binary op [lhs, rhs]

def ternary (op : Operation) (first second : Expr) (third : Option Expr) : Except EvalError Expr :=
  checkedOperator .ternary op (first :: second :: third.toList)

def onAssignable (target : Expr) (node : Except EvalError Expr) : Except EvalError Expr :=
  if target.isAssignable then node else .error (.of .invalidAssignmentTarget)

def checkedAssign (mode : AssignMode) (target value : Expr) : Except EvalError Expr :=
  onAssignable target (.ok (.assign mode target value))

def checkedCompound (op : Operation) (target value : Expr) (result : Option Ty) :
    Except EvalError Expr :=
  onAssignable target <|
    (op.infer [target.type, value.type]).map fun _ => .compound op target value result

def checkedStep (step : Step) (target : Expr) : Except EvalError Expr :=
  onAssignable target <|
    if target.type.isNumeric || decide (target.type = .any) then .ok (.step step target)
    else .error (.of (.invalidOperand step.symbol target.type.text))

def checkedTry (body binding handler : Expr) : Except EvalError Expr :=
  onAssignable binding (.ok (.tryCatch body binding handler))

end ExprCore.Expr
