/-!
Static types of expressions and runtime types of values. The numeric types form a chain
`char < int < long < double`; `any` is the top type, and `void` marks a statement.
-/

namespace ExprCore
set_option autoImplicit false

inductive Ty where
  | void
  | null
  | bool
  | char
  | int
  | long
  | double
  | str
  /-- A mutable character buffer. -/
  | buffer
  | list (elem : Ty)
  | array (elem : Ty)
  | map (value : Ty)
  | function (ret : Ty)
  /-- An instance of any interpreted class. -/
  | object
  | host (className : String)
  | any
  deriving DecidableEq, Inhabited

/-- The coarse classification of types that runtime type tests use. -/
inductive TyKind where
  | void
  | null
  | boolean
  | character
  | integral
  | floating
  | string
  | buffer
  | list
  | array
  | map
  | function
  | object
  | host
  | any
  deriving DecidableEq

def TyKind.name : TyKind → String
  | .void => "Void"
  | .null => "Null"
  | .boolean => "Boolean"
  | .character => "Character"
  | .integral => "Integral"
  | .floating => "Floating"
  | .string => "String"
  | .buffer => "CharBuffer"
  | .list => "List"
  | .array => "Array"
  | .map => "Map"
  | .function => "Function"
  | .object => "Object"
  | .host => "Host"
  | .any => "Any"

namespace Ty

def kind : Ty → TyKind
  | .void => .void
  | .null => .null
  | .bool => .boolean
  | .char => .character
  | .int | .long => .integral
  | .double => .floating
  | .str => .string
  | .buffer => .buffer
  | .list _ => .list
  | .array _ => .array
  | .map _ => .map
  | .function _ => .function
  | .object => .object
  | .host _ => .host
  | .any => .any

/-- The name of the runtime class that represents values of the type. -/
def hostClass : Ty → String
  | .void => "void"
  | .null => "null"
  | .bool => "boolean"
  | .char => "char"
  | .int => "int"
  | .long => "long"
  | .double => "double"
  | .str => "String"
  | .buffer => "StringBuilder"
  | .list _ => "List"
  | .array _ => "Array"
  | .map _ => "Map"
  | .function _ => "Function"
  | .object | .any => "Object"
  | .host className => className

def text : Ty → String
  | .list elem => "List<" ++ elem.text ++ ">"
  | .array elem => elem.text ++ "[]"
  | .map value => "Map<String, " ++ value.text ++ ">"
  | .function ret => "Function<" ++ ret.text ++ ">"
  | .any => "any"
  | t => t.hostClass

/-- The type of the elements that indexing yields. -/
def elementType? : Ty → Option Ty
  | .str | .buffer => some .char
  | .list elem | .array elem | .map elem => some elem
  | _ => none

def returnType? : Ty → Option Ty
  | .function ret => some ret
  | _ => none

/-- The position of a numeric type in the chain of conversions. -/
def rank? : Ty → Option Nat
  | .char => some 0
  | .int => some 1
  | .long => some 2
  | .double => some 3
  | _ => none

def isNumeric (t : Ty) : Bool := t.rank?.isSome

/-- True for the types whose values may be null. -/
def isReference : Ty → Bool
  | .null | .str | .buffer | .list _ | .array _ | .map _ | .function _ | .object | .host _
  | .any => true
  | _ => false

/-- The join of two types: what a conditional with branches of these types has as its own type.
`void` absorbs every other type, and types without a common conversion meet at `any`. -/
def union (a b : Ty) : Ty :=
  if a = b then a else
  match a, b with
  | .void, _ => .void
  | _, .void => .void
  | .any, _ => .any
  | _, .any => .any
  | .null, t => if t.isReference then t else .any
  | t, .null => if t.isReference then t else .any
  | .list a, .list b => .list (a.union b)
  | .array a, .array b => .array (a.union b)
  | .map a, .map b => .map (a.union b)
  | .function a, .function b => .function (a.union b)
  | a, b =>
    match a.rank?, b.rank? with
    | some m, some n => if n ≤ m then a else b
    | _, _ => .any

/-- `a.contains b` says that every value of type `b` converts to `a` without loss. -/
def contains (a b : Ty) : Bool :=
  if a = b then true else
  match a, b with
  | .any, _ => true
  | t, .null => t.isReference
  | .list a, .list b => a.contains b
  | .array a, .array b => a.contains b
  | .map a, .map b => a.contains b
  | .function a, .function b => a.contains b
  | a, b =>
    match a.rank?, b.rank? with
    | some m, some n => decide (n ≤ m)
    | _, _ => false

end Ty

end ExprCore
