import ExprCore.Host.Operations
import ExprCore.Operator.Invoke
import ExprCore.Resolve

/-!
Calls. A machine is what one step of evaluation may use: the host, fuel for walks and for calls
between host functions, and the evaluation of smaller computations.
-/

namespace ExprCore
set_option autoImplicit false

namespace Closure

def name (f : Closure) : String := f.signature.name.getD "<lambda>"

end Closure

namespace Signature

/-- Parameters up to the first one with a default must be given. -/
def arity (f : Signature) : Arity :=
  let required := (f.params.takeWhile fun p => p.default.isNone).length
  match f.rest with
  | some _ => .atLeast required
  | none => .between required f.params.length

def info (f : Signature) : FunctionInfo := ⟨f.name.getD "<lambda>", f.arity, f.ret⟩

end Signature

def argumentNote (i : Nat) (name : String) : String :=
  "argument " ++ toString i ++ " of " ++ name

def checkCount (name : String) (arity : Arity) (args : List Value) : Except EvalError Unit :=
  if arity.accepts args.length then .ok ()
  else .error (.of (.arityMismatch name arity.text args.length))

namespace Native

/-- Casts arguments to the types of the parameters, then to the type of further arguments. The
first argument is the `i`-th of the call. -/
def castArgs (name : String) (rest : Ty) : Nat → List Ty → List Value →
    Except EvalError (List Value)
  | _, _, [] => .ok []
  | i, params, v :: args => do
    let w ← (params.head?.getD rest).castNoting (argumentNote i name) v
    pure (w :: (← castArgs name rest (i + 1) params.tail args))

def validate (f : Native) (args : List Value) : Except EvalError (List Value) := do
  checkCount f.name f.arity args
  castArgs f.name (f.rest.getD .any) 1 f.params args

end Native

namespace Closure

/-- One value for each parameter, cast to its type: the argument, or the default if no argument is
left. The first parameter is the `i`-th of the call. -/
def bindParams (name : String) : Nat → List Param → List Value → Except EvalError (List Value)
  | _, [], _ => .ok []
  | i, p :: params, args => do
    let v := args.head?.getD (p.default.getD .null)
    let w ← p.type.castNoting (argumentNote i name) v
    pure (w :: (← bindParams name (i + 1) params args.tail))

/-- One value for each slot of the frame: the parameters, then a list of the further arguments. -/
def validate (f : Closure) (args : List Value) : Run (List Value) := do
  Run.ofExcept (checkCount f.name f.signature.arity args)
  let bound ← Run.ofExcept (bindParams f.name 1 f.signature.params args)
  match f.signature.rest with
  | none => pure bound
  | some _ => pure (bound ++ [← Run.newList (args.drop f.signature.params.length)])

end Closure

namespace Callable

/-- Checks the number of arguments, fills in defaults and casts every argument to the type of its
parameter. -/
def validate (f : Callable) (args : List Value) : Run (List Value) :=
  match f with
  | .native f => Run.ofExcept (f.validate args)
  | .operator op => Run.ofExcept (op.validate args)
  | .closure f => f.validate args

def ret : Callable → Ty
  | .native f => f.ret
  | .operator op => op.ret
  | .closure f => f.signature.ret

end Callable

structure Machine where
  host : Host
  fuel : Nat
  eval : Env → Expr → Run Value

namespace Machine

def fill (base : Ref) : List Value → Run Unit
  | [] => pure ()
  | v :: vs => do
    Run.writeCell base v
    fill (base + 1) vs

def invokeClosure (m : Machine) (f : Closure) (args : List Value) : Run Value := do
  let layout := f.signature.layout
  let base ← Run.newCells (layout.map fun slot => slot.type.default)
  fill base (args.take layout.length)
  let v ← Run.catchReturn (m.eval (⟨layout, base⟩ :: f.env) f.body)
  Run.ofExcept (f.signature.ret.castNoting ("return value of " ++ f.name) v)

/-- Runs host code, where `call` validates arguments and calls a function. -/
def runWith {ε α : Type} (fuel : Nat) (call : Ref → List Value → Run Value) :
    HostAction ε α → Run (Except ε α)
  | .done result => pure (.ok result)
  | .fail fault => pure (.error fault)
  | .call function args next => do runWith fuel call (next (← Run.outcome (call function args)))
  | .perform op next => do runWith fuel call (next (← Run.outcome (op.run fuel)))
  | .newNative f next => do runWith fuel call (next (← Run.newNative f))
  | .look container next => do runWith fuel call (next ((← get).content? container))
  | .newRecord fields next => do runWith fuel call (next (← Run.newRecord fields))
  | .readRecord record i next => do runWith fuel call (next ((← get).field record i))
  | .writeRecord record i v next => do runWith fuel call (next (← Run.writeRecord record i v))

def invokeHost (m : Machine) (call : Ref → List Value → Run Value) (name : String)
    (body : List Value → HostAction EvalError Value) (args : List Value) : Run Value := do
  Run.recordCall ⟨name, args⟩
  match ← runWith m.fuel call (body args) with
  | .ok v => pure v
  | .error e => throw (.error e)

/-- Applies an operator to operands of a number that it takes. -/
def operateWith (m : Machine) (call : Ref → List Value → Run Value) (op : Operation)
    (args : List Value) : Run Value :=
  match op with
  | .builtIn op => op.invoke m.fuel args
  | .host f => m.invokeHost call f.name f.body args

/-- Calls a function with arguments that it has validated. Of the calls between host functions that
no evaluation separates, the first argument bounds how deep they nest. -/
def invokeWithin (m : Machine) : Nat → Callable → List Value → Run Value
  | 0, _, _ => throw .exhausted
  | n + 1, f, args =>
    let call (function : Ref) (args : List Value) : Run Value := do
      let f := (← get).callable function
      m.invokeWithin n f (← f.validate args)
    match f with
    | .native f => m.invokeHost call f.name f.body args
    | .operator op => m.operateWith call op args
    | .closure f => m.invokeClosure f args

def invoke (m : Machine) (f : Callable) (args : List Value) : Run Value :=
  m.invokeWithin m.fuel f args

def call (m : Machine) (function : Ref) (args : List Value) : Run Value := do
  let f := (← get).callable function
  m.invoke f (← f.validate args)

def operate (m : Machine) (op : Operation) (args : List Value) : Run Value :=
  m.operateWith m.call op args

/-- Validates arguments and calls a function, whose result is dropped if its declared result type
is `void`. -/
def callForResult (m : Machine) (function : Ref) (args : List Value) : Run Value := do
  let f := (← get).callable function
  let v ← m.invoke f (← f.validate args)
  if f.ret = .void then pure .void else pure v

/-- Runs host code. A fault becomes an error about the given operation. -/
def dispatch {α : Type} (m : Machine) (operation : String) (a : HostAction HostFault α) :
    Run α := do
  match ← runWith m.fuel m.call a with
  | .ok v => pure v
  | .error fault => Run.fail (.hostDispatch operation fault)

/-- A new function over the live frames. Its body is resolved against them once more. -/
def makeClosure (signature : Signature) (body : Expr) (env : Env) : Run Value :=
  let scope := (Scope.ofEnv env).function signature.layout
  Run.newFunction signature.info (.closure ⟨signature, (body.resolve 1 scope).value, env⟩)

end Machine

end ExprCore
