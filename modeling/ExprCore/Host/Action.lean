import ExprCore.Entries
import ExprCore.Operator

/-!
Host code. A native function, an operator of the host or a member of a host class is a program that
makes values, reads and changes containers and members of objects, keeps private memory, and calls
functions that it was given. It calls a function only with arguments that the function has validated.
-/

namespace ExprCore
set_option autoImplicit false

inductive Content where
  | items (items : List Value)
  | chars (chars : List Char)
  | entries (entries : Entries)

/-- What host code does to values. Arrays and members of objects take what casts to their types. -/
inductive HostOp where
  | newList (items : List Value)
  | newArray (elem : Ty) (items : List Value)
  | newBuffer (chars : List Char)
  | newMap (entries : Entries)
  | newObject (className : String) (members : List (String × Ty))
  | newOperator (op : Operator)
  | writeList (list : Ref) (items : List Value)
  | writeElement (elem : Ty) (array : Ref) (i : Nat) (v : Value)
  | writeBuffer (buffer : Ref) (chars : List Char)
  | writeMap (map : Ref) (entries : Entries)
  | readMember (object : Ref) (name : String)
  | writeMember (object : Ref) (name : String) (v : Value)
  | display (v : Value)
  | equal (v w : Value)

/-- A program that fails with an `ε` or yields an `α`, and makes native functions that are given by a
`ν`. -/
inductive HostProgram (ν ε α : Type) where
  | done (result : α)
  | fail (fault : ε)
  /-- Validates the arguments and calls the function; the program goes on with the outcome. -/
  | call (function : Ref) (args : List Value) (next : Except EvalError Value → HostProgram ν ε α)
  | perform (op : HostOp) (next : Except EvalError Value → HostProgram ν ε α)
  | newNative (f : ν) (next : Value → HostProgram ν ε α)
  /-- Looks at what a container holds. -/
  | look (container : Value) (next : Option Content → HostProgram ν ε α)
  | newRecord (fields : List Value) (next : Ref → HostProgram ν ε α)
  | readRecord (record : Ref) (field : Nat) (next : Value → HostProgram ν ε α)
  | writeRecord (record : Ref) (field : Nat) (value : Value) (next : Unit → HostProgram ν ε α)

namespace HostProgram

variable {ν ε α β : Type}

def bind (a : HostProgram ν ε α) (f : α → HostProgram ν ε β) : HostProgram ν ε β :=
  match a with
  | .done result => f result
  | .fail fault => .fail fault
  | .call function args next => .call function args fun r => (next r).bind f
  | .perform op next => .perform op fun r => (next r).bind f
  | .newNative g next => .newNative g fun r => (next r).bind f
  | .look container next => .look container fun r => (next r).bind f
  | .newRecord fields next => .newRecord fields fun r => (next r).bind f
  | .readRecord record field next => .readRecord record field fun r => (next r).bind f
  | .writeRecord record field value next => .writeRecord record field value fun r => (next r).bind f

instance : Monad (HostProgram ν ε) where
  pure := .done
  bind := bind

def read (record : Ref) (field : Nat) : HostProgram ν ε Value := .readRecord record field .done

def write (record : Ref) (field : Nat) (v : Value) : HostProgram ν ε Unit :=
  .writeRecord record field v .done

end HostProgram

/-- A function that the host implements. -/
structure Native where
  name : String
  params : List Ty
  rest : Option Ty
  ret : Ty
  body : List Value → HostProgram Native EvalError Value

abbrev HostAction := HostProgram Native

namespace Native

def arity (f : Native) : Arity :=
  match f.rest with
  | some _ => .atLeast f.params.length
  | none => .exact f.params.length

def info (f : Native) : FunctionInfo := ⟨f.name, f.arity, f.ret⟩

end Native

/-- What a host class offers. Members of instances are given the record that the instance is. -/
structure HostClass where
  construct : List Value → HostAction HostFault Value
  getStatic : String → HostAction HostFault Value
  setStatic : String → Value → HostAction HostFault Unit
  invokeStatic : String → List Value → HostAction HostFault Value
  getField : Ref → String → HostAction HostFault Value
  setField : Ref → String → Value → HostAction HostFault Unit
  invokeMethod : Ref → String → List Value → HostAction HostFault Value

/-- The classes of a host, by name. -/
abbrev Host := String → HostClass

end ExprCore
