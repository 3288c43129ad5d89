import ExprCore.Host.Action

/-!
Operators as nodes apply them: the built-in ones, and those that a host adds.
-/

namespace ExprCore
set_option autoImplicit false

/-- An operator that the host implements. It is never applied ahead of time. -/
structure HostOperator where
  name : String
  arity : Arity
  ret : Ty
  /-- The static type of the result for operands of given types. -/
  infer : List Ty → Except EvalError Ty
  body : List Value → HostAction EvalError Value

inductive Operation where
  | builtIn (op : Operator)
  | host (f : HostOperator)

namespace Operation

@[match_pattern] abbrev arith (op : Arith) : Operation := .builtIn (.arith op)

@[match_pattern] abbrev compare (op : Comparison) : Operation := .builtIn (.compare op)

@[match_pattern] abbrev negate : Operation := .builtIn .negate

@[match_pattern] abbrev not : Operation := .builtIn .not

@[match_pattern] abbrev range : Operation := .builtIn .range

def name : Operation → String
  | .builtIn op => op.name
  | .host f => f.name

def arity : Operation → Arity
  | .builtIn op => op.arity
  | .host f => f.arity

def ret : Operation → Ty
  | .builtIn op => op.ret
  | .host f => f.ret

/-- A pure operator over constant operands may be applied ahead of time. -/
def isPure : Operation → Bool
  | .builtIn _ => true
  | .host _ => false

def info (op : Operation) : FunctionInfo := ⟨op.name, op.arity, op.ret⟩

def infer : Operation → List Ty → Except EvalError Ty
  | .builtIn op, types => op.infer types
  | .host f, types => f.infer types

/-- Operators check only how many operands they are given. -/
def validate (op : Operation) (args : List Value) : Except EvalError (List Value) :=
  if op.arity.accepts args.length then .ok args
  else .error (.of (.arityMismatch op.name op.arity.text args.length))

end Operation

end ExprCore
