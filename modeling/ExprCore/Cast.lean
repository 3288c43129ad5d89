import ExprCore.Double.Integer
import ExprCore.Error

/-!
Conversion of a value to a type. Numbers widen and narrow, a fraction being cut off and an integer
that does not fit being refused; all other values convert only to types that they already have, and
null converts to every reference type.
-/

namespace ExprCore
set_option autoImplicit false

namespace Value

def int? (n : Int) : Option Value :=
  if -0x80000000 ≤ n ∧ n < 0x80000000 then some (.int (Int32.ofInt n)) else none

def long? (n : Int) : Option Value :=
  if -0x8000000000000000 ≤ n ∧ n < 0x8000000000000000 then some (.long (Int64.ofInt n)) else none

def char? (n : Int) : Option Value :=
  if 0 ≤ n ∧ n.toNat.isValidChar then some (.char (Char.ofNat n.toNat)) else none

/-- The number in a value as an integer, the fraction of a double cut off. -/
def truncated? : Value → Option Int
  | .double x => some (Double.truncate x).toInt
  | v => v.integral?

end Value

namespace EvalError

def typeMismatch (expected got : String) : EvalError := of (.typeMismatch expected got)

def overflow (operation : String) : EvalError := of (.integerOverflow operation)

end EvalError

namespace Ty

/-- Conversion to an integral type: of numbers and characters, where `make?` says which fit. -/
def castIntegral (t : Ty) (make? : Int → Option Value) (v : Value) :
    Except EvalError Value :=
  match v.truncated? with
  | none => .error (.typeMismatch t.text v.typeName)
  | some n =>
    match make? n with
    | none => .error (.overflow ("conversion to " ++ t.text))
    | some w => .ok w

def castDouble (v : Value) : Except EvalError Value :=
  match v with
  | .double x => .ok (.double x)
  | v =>
    match v.integral? with
    | none => .error (.typeMismatch "double" v.typeName)
    | some n => .ok (.double (Double.ofInt n))

def cast (t : Ty) (v : Value) : Except EvalError Value :=
  match t, v with
  | .any, v => .ok v
  | .void, _ => .ok .void
  | .char, v => castIntegral .char Value.char? v
  | .int, v => castIntegral .int Value.int? v
  | .long, v => castIntegral .long Value.long? v
  | .double, v => castDouble v
  | .bool, .bool b => .ok (.bool b)
  | .str, .str s => .ok (.str s)
  | .buffer, .buffer r => .ok (.buffer r)
  | .list _, .list r => .ok (.list r)
  | .map _, .map r => .ok (.map r)
  | .function _, .function info r => .ok (.function info r)
  | .object, .object className r => .ok (.object className r)
  | .array elem, .array elem' r =>
    if elem.contains elem' then .ok (.array elem' r)
    else .error (.typeMismatch t.text (Value.array elem' r).typeName)
  | .host className, .host className' r =>
    if className' = className then .ok (.host className' r)
    else .error (.typeMismatch t.text (Value.host className' r).typeName)
  | t, v =>
    if t.isReference && v.isNull then .ok .null else .error (.typeMismatch t.text v.typeName)

def castNoting (t : Ty) (note : String) (v : Value) : Except EvalError Value :=
  (t.cast v).mapError (·.withNote note)

end Ty

end ExprCore
