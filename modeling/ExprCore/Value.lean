import ExprCore.Arity
import ExprCore.Ty

/-!
Runtime values. Scalars and strings are held in the value; everything that can change or has an
identity is held in the store, and the value refers to it. So two values with one reference are
one container, function, object or host object.
-/

namespace ExprCore
set_option autoImplicit false

/-- An address in the part of the store that belongs to the kind of value. -/
abbrev Ref := Nat

/-- What is known of a function without calling it. -/
structure FunctionInfo where
  name : String
  arity : Arity
  ret : Ty
  deriving DecidableEq, Inhabited

inductive Value where
  /-- The result of an expression that is evaluated for its effect only. -/
  | void
  | null
  | bool (b : Bool)
  | char (c : Char)
  | int (n : Int32)
  | long (n : Int64)
  | double (x : Float)
  | str (s : String)
  | buffer (ref : Ref)
  | list (ref : Ref)
  /-- A container of fixed length whose elements all conform to `elem`. -/
  | array (elem : Ty) (ref : Ref)
  | map (ref : Ref)
  | function (info : FunctionInfo) (ref : Ref)
  | object (className : String) (ref : Ref)
  | host (className : String) (ref : Ref)
  deriving Inhabited

namespace Value

/-- The runtime type. The elements of lists and maps are not looked at. -/
def ty : Value → Ty
  | .void => .void
  | .null => .null
  | .bool _ => .bool
  | .char _ => .char
  | .int _ => .int
  | .long _ => .long
  | .double _ => .double
  | .str _ => .str
  | .buffer _ => .buffer
  | .list _ => .list .any
  | .array elem _ => .array elem
  | .map _ => .map .any
  | .function info _ => .function info.ret
  | .object .. => .object
  | .host className _ => .host className

def typeName : Value → String
  | .object className _ => className
  | v => v.ty.text

def signature (args : List Value) : String := ", ".intercalate (args.map fun v => v.ty.text)

def isNull : Value → Bool
  | .null => true
  | _ => false

def isVoid : Value → Bool
  | .void => true
  | _ => false

/-- The number that an integer or a character stands for. -/
def integral? : Value → Option Int
  | .int n => some n.toInt
  | .long n => some n.toInt
  | .char c => some c.toNat
  | _ => none

end Value

/-- The value that a fresh slot of the type holds. -/
def Ty.default : Ty → Value
  | .void => .void
  | .bool => .bool false
  | .char => .char '\x00'
  | .int => .int 0
  | .long => .long 0
  | .double => .double 0.0
  | _ => .null

end ExprCore
