import ExprCore.Expr.Typing
import ExprCore.Place

/-!
Evaluation of trees. A machine evaluates one node with the help of a machine with less fuel for its
children; `eval` ties the knot.
-/

namespace ExprCore
set_option autoImplicit false

namespace Value

/-- The runtime type test. Null and `void` are instances of nothing; of lists, maps and functions
only the kind is looked at. -/
def isInstance (v : Value) (t : Ty) : Bool :=
  if v.isNull || v.isVoid then false else
  match t.kind with
  | .any => true
  | .list | .map | .function => decide (v.ty.kind = t.kind)
  | .array => t.contains v.ty
  | _ => decide (v.ty = t)

end Value

namespace Machine

def evalAll (m : Machine) (env : Env) : List Expr → Run (List Value)
  | [] => pure []
  | e :: es => do
    let v ← m.eval env e
    pure (v :: (← m.evalAll env es))

/-- Evaluates and casts each item before the next one is evaluated. -/
def evalElements (m : Machine) (env : Env) (elem : Ty) : List Expr → Run (List Value)
  | [] => pure []
  | e :: es => do
    let v ← Run.ofExcept (elem.cast (← m.eval env e))
    pure (v :: (← m.evalElements env elem es))

/-- Evaluates keys, which must be strings, and values, each pair before the next one. -/
def evalEntries (m : Machine) (env : Env) (value : Ty) :
    List (Expr × Expr) → Run (List (String × Value))
  | [] => pure []
  | (key, e) :: entries => do
    let k ← Run.ofExcept (Indexable.mapKey (← m.eval env key))
    let v ← Run.ofExcept (value.cast (← m.eval env e))
    pure ((k, v) :: (← m.evalEntries env value entries))

/-- Evaluates every expression and yields the last value, or `last` if there is none. -/
def evalSequence (m : Machine) (env : Env) (last : Value) : List Expr → Run Value
  | [] => pure last
  | e :: es => do m.evalSequence env (← m.eval env e) es

def truthOf (m : Machine) (env : Env) (e : Expr) : Run Bool := do
  let v ← m.eval env e
  pure (v.truth (← get))

/-- Applies an operator and casts the result to the static type of the node. -/
def evalOperator (m : Machine) (env : Env) (op : Operation) (operands : List Expr) (t : Ty) :
    Run Value := do
  let args ← m.evalAll env operands
  let v ← m.operate op (← Run.ofExcept (op.validate args))
  Run.ofExcept (t.castNoting ("result of `" ++ op.name ++ "`") v)

def evalLogical (m : Machine) (env : Env) (op : Connective) (lhs rhs : Expr) : Run Value := do
  match op, ← m.truthOf env lhs with
  | .and, false => pure (.bool false)
  | .or, true => pure (.bool true)
  | _, _ => .bool <$> m.truthOf env rhs

def evalConditional (m : Machine) (env : Env) (cond thenBranch elseBranch : Expr) (t : Ty) :
    Run Value := do
  let v ← m.eval env (if ← m.truthOf env cond then thenBranch else elseBranch)
  Run.ofExcept (t.castNoting "result of conditional" v)

def evalBefore (m : Machine) (env : Env) (first second : Expr) : Run Value := do
  let v ← m.eval env first
  let _ ← m.eval env second
  pure v

def evalAssign (m : Machine) (env : Env) (mode : AssignMode) (target value : Expr) :
    Run Value := do
  let p ← m.place env target
  m.writeAs mode p (← m.eval env value)

def evalCompound (m : Machine) (env : Env) (op : Operation) (target value : Expr)
    (result : Option Ty) : Run Value := do
  let p ← m.place env target
  let old ← m.read p
  let v ← m.eval env value
  let w ← m.operate op (← Run.ofExcept (op.validate [old, v]))
  m.write p (← Run.ofExcept ((result.getD .any).cast w))

def evalStep (m : Machine) (env : Env) (step : Step) (target : Expr) : Run Value := do
  let p ← m.place env target
  let old ← m.read p
  let updated ← Arith.add.invoke m.fuel old (.int step.delta)
  let written ← m.write p updated
  pure (if step.yieldsNew then written else old)

def evalSlice (m : Machine) (env : Env) (base lo hi : Expr) : Run Value := do
  let container ← Run.ofExcept (Indexable.ofValue (← m.eval env base))
  let lo ← Run.ofExcept (← m.eval env lo).toInt
  let hi ← Run.ofExcept (← m.eval env hi).toInt
  container.slice lo hi

def evalPlace (m : Machine) (env : Env) (e : Expr) : Run Value := do
  let p ← m.place env e
  m.read p

def callMethod (m : Machine) (receiver : Value) (method : String) (args : List Value) :
    Run Value := do
  match receiver with
  | .host className r =>
    m.dispatch (className ++ "." ++ method ++ "(" ++ Value.signature args ++ ")")
      ((m.host className).invokeMethod r method args)
  | .object className r =>
    match ((← get).instanceAt r).member? method with
    | some (cell, _) =>
      match ← Run.readCell cell with
      | .function _ f => m.callForResult f args
      | v => Run.fail (.notCallable v.typeName)
    | none => Run.fail (.noSuchMember method className)
  | .null => Run.fail (.nullReference "method call")
  | v => Run.fail (.noSuchMember method v.typeName)

def evalMethodCall (m : Machine) (env : Env) (receiver : Expr) (method : String)
    (args : List Expr) : Run Value := do
  let v ← m.eval env receiver
  m.callMethod v method (← m.evalAll env args)

def evalStaticCall (m : Machine) (env : Env) (className method : String) (args : List Expr) :
    Run Value := do
  let args ← m.evalAll env args
  m.dispatch (className ++ "." ++ method ++ "(" ++ Value.signature args ++ ")")
    ((m.host className).invokeStatic method args)

def evalNew (m : Machine) (env : Env) (className : String) (args : List Expr) : Run Value := do
  let args ← m.evalAll env args
  m.dispatch ("new " ++ className ++ "(" ++ Value.signature args ++ ")")
    ((m.host className).construct args)

def functionIn : Value → Run Ref
  | .function _ f => pure f
  | .null => Run.fail (.nullReference "call")
  | v => Run.fail (.notCallable v.typeName)

def evalApply (m : Machine) (env : Env) (callee : Expr) (args : List Expr) : Run Value := do
  let f ← functionIn (← m.eval env callee)
  m.callForResult f (← m.evalAll env args)

def evalBlock (m : Machine) (env : Env) (layout : Layout) (body : List Expr) (ret : Ty) :
    Run Value := do
  let inner ← Run.enter env layout
  let v ← Run.catchReturn (m.evalSequence inner .void body)
  Run.ofExcept (ret.castNoting "result of let block" v)

def evalArrayLiteral (m : Machine) (env : Env) (elem : Ty) (items : List Expr) : Run Value := do
  let values ← m.evalAll env items
  Run.newArrayOf elem (← Run.ofExcept (values.mapM elem.cast))

def evalArrayAlloc (m : Machine) (env : Env) (elem : Ty) (length : Expr) : Run Value := do
  let n ← Run.ofExcept (← m.eval env length).toInt
  if n < 0 then Run.fail (.indexOutOfBounds n 0)
  else Run.newArrayOf elem (List.replicate n.toNat elem.default)

def evalExtendList (m : Machine) (env : Env) (list : Expr) (elem : Ty) (items : List Expr) :
    Run Value := do
  match ← m.eval env list with
  | .list r =>
    let values ← m.evalElements env elem items
    Run.writeSequence r ((← get).items r ++ values)
    pure (.list r)
  | v => Run.fail (.typeMismatch "List" v.typeName)

def evalExtendMap (m : Machine) (env : Env) (map : Expr) (value : Ty)
    (entries : List (Expr × Expr)) : Run Value := do
  match ← m.eval env map with
  | .map r =>
    let more ← m.evalEntries env value entries
    Run.writeMap r (((← get).entries r).insertAll more)
    pure (.map r)
  | v => Run.fail (.typeMismatch "Map" v.typeName)

/-- Evaluates the body as long as the condition is true, at most as often as the first argument
says. -/
def evalLoop (m : Machine) (env : Env) (cond body : Expr) : Nat → Run Value
  | 0 => throw .exhausted
  | n + 1 => do
    if ← m.truthOf env cond then
      let _ ← m.eval env body
      m.evalLoop env cond body n
    else pure .void

def handle (m : Machine) (env : Env) (binding handler : Expr) (e : EvalError) : Run Value := do
  let p ← m.place env binding
  let _ ← m.store p (.str e.message)
  m.eval env handler

/-- An error in the body is handled; an early return passes through. -/
def evalTry (m : Machine) (env : Env) (body binding handler : Expr) (t : Ty) : Run Value := do
  let v ← match ← Run.outcome (m.eval env body) with
    | .ok v => pure v
    | .error e =>
      match e.returned? with
      | some _ => throw (.error e)
      | none => m.handle env binding handler e
  Run.ofExcept (t.cast v)

def evalRaise (m : Machine) (env : Env) (message : Expr) : Run Value := do
  let v ← m.eval env message
  Run.fail (.thrown (← Run.ofOption (v.display (← get) m.fuel)))

def evalNode (m : Machine) (env : Env) (e : Expr) : Run Value :=
  match e with
  | .literal v _ => pure v
  | .name n => Run.fail (.undefinedVariable n)
  | .scopeRef hops => throw (.placeholder hops)
  | .var _ | .index .. | .member .. | .staticField .. => m.evalPlace env e
  | .operator _ op operands => m.evalOperator env op operands e.type
  | .logical op lhs rhs => m.evalLogical env op lhs rhs
  | .conditional cond thenBranch elseBranch =>
    m.evalConditional env cond thenBranch elseBranch e.type
  | .sequence items => m.evalSequence env .void items
  | .before first second => m.evalBefore env first second
  | .cast target operand => do Run.ofExcept (target.cast (← m.eval env operand))
  | .instanceOf operand target => do pure (.bool ((← m.eval env operand).isInstance target))
  | .assign mode target value => m.evalAssign env mode target value
  | .compound op target value result => m.evalCompound env op target value result
  | .step step target => m.evalStep env step target
  | .slice base lo hi => m.evalSlice env base lo hi
  | .methodCall receiver method args => m.evalMethodCall env receiver method args
  | .staticCall className method args => m.evalStaticCall env className method args
  | .new className args => m.evalNew env className args
  | .apply callee args => m.evalApply env callee args
  | .lambda signature body => makeClosure signature body env
  | .block layout body ret => m.evalBlock env layout body ret
  | .earlyReturn value => do Run.fail (.earlyReturn (← m.eval env value))
  | .arrayLiteral elem items => m.evalArrayLiteral env elem items
  | .arrayAlloc elem length => m.evalArrayAlloc env elem length
  | .listLiteral elem items => do Run.newList (← m.evalElements env elem items)
  | .extendList list elem items => m.evalExtendList env list elem items
  | .mapLiteral value entries => do
    Run.newMap (Entries.insertAll [] (← m.evalEntries env value entries))
  | .extendMap map value entries => m.evalExtendMap env map value entries
  | .loop cond body => m.evalLoop env cond body m.fuel
  | .tryCatch body binding handler => m.evalTry env body binding handler e.type
  | .raise message => m.evalRaise env message

end Machine

/-- Evaluates a tree against live frames. The fuel bounds how deep evaluation nests and how often a
loop repeats. -/
def eval (host : Host) : Nat → Env → Expr → Run Value
  | 0, _, _ => throw .exhausted
  | n + 1, env, e => Machine.evalNode ⟨host, n, eval host n⟩ env e

@[simp] theorem eval_zero (host : Host) (env : Env) (e : Expr) :
    eval host 0 env e = throw .exhausted := rfl

theorem eval_succ (host : Host) (n : Nat) (env : Env) (e : Expr) :
    eval host (n + 1) env e = Machine.evalNode ⟨host, n, eval host n⟩ env e := rfl

def Machine.ofFuel (host : Host) (fuel : Nat) : Machine := ⟨host, fuel, ExprCore.eval host fuel⟩

end ExprCore
