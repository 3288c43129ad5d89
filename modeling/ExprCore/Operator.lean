import ExprCore.Error

/-!
The built-in operators and their static types. Two numeric operands promote along
`char < int < long < double`, and characters compute as integers.
-/

namespace ExprCore
set_option autoImplicit false

inductive Arith where
  | add
  | sub
  | mul
  | div
  | rem
  deriving DecidableEq

def Arith.symbol : Arith → String
  | .add => "+"
  | .sub => "-"
  | .mul => "*"
  | .div => "/"
  | .rem => "%"

def Arith.describe : Arith → String
  | .add => "addition"
  | .sub => "subtraction"
  | .mul => "multiplication"
  | .div => "division"
  | .rem => "remainder"

inductive Comparison where
  | eq
  | ne
  | lt
  | le
  | gt
  | ge
  deriving DecidableEq

namespace Comparison

def symbol : Comparison → String
  | .eq => "=="
  | .ne => "!="
  | .lt => "<"
  | .le => "<="
  | .gt => ">"
  | .ge => ">="

/-- The comparisons that are defined for all operands. -/
def isEquality : Comparison → Bool
  | .eq | .ne => true
  | _ => false

/-- Whether a comparison holds of operands in the given order; none if they are not ordered. -/
def holds (c : Comparison) (order : Option Ordering) : Bool :=
  match c with
  | .eq => order = some .eq
  | .ne => order ≠ some .eq
  | .lt => order = some .lt
  | .le => order = some .lt ∨ order = some .eq
  | .gt => order = some .gt
  | .ge => order = some .gt ∨ order = some .eq

end Comparison

inductive Operator where
  | arith (op : Arith)
  | compare (op : Comparison)
  | negate
  | not
  /-- The list of numbers from one to another, with an optional step. -/
  | range
  deriving DecidableEq

namespace Operator

def name : Operator → String
  | .arith op => op.symbol
  | .compare op => op.symbol
  | .negate => "-"
  | .not => "!"
  | .range => ".."

def arity : Operator → Arity
  | .arith _ | .compare _ => .exact 2
  | .negate | .not => .exact 1
  | .range => .between 2 3

def ret : Operator → Ty
  | .arith _ | .negate => .any
  | .compare _ | .not => .bool
  | .range => .list .any

/-- The element type of a range over ends, and perhaps a step, of the given types: characters if
both ends are characters, else the widest type, at least `int`. -/
def rangeElement (types : List Ty) : Except EvalError Ty :=
  if .any ∈ types then .ok .any else
  match types.find? (!·.isNumeric) with
  | some bad => .error (.of (.invalidOperand ".." bad.text))
  | none =>
    if .double ∈ types then .ok .double
    else if (types.take 2).all (· = .char) then .ok .char
    else if .long ∈ types then .ok .long
    else .ok .int

def inferArith (op : Arith) (a b : Ty) : Except EvalError Ty :=
  if op = .add ∧ (a = .str ∨ b = .str) then .ok .str
  else if a = .any ∨ b = .any then .ok .any
  else if a.isNumeric && b.isNumeric then
    match a.union b with
    | .char => .ok .int
    | widest => .ok widest
  else .error (.of (.binaryTypeMismatch op.symbol a.text b.text))

def inferCompare (op : Comparison) (a b : Ty) : Except EvalError Ty :=
  if op.isEquality || decide (a = .any) || decide (b = .any) || (a.isNumeric && b.isNumeric) ||
      (decide (a = b) && (decide (a = .str) || decide (a = .bool))) then .ok .bool
  else .error (.of (.binaryTypeMismatch op.symbol a.text b.text))

def inferNegate : Ty → Except EvalError Ty
  | .any => .ok .any
  | .char => .ok .int
  | a => if a.isNumeric then .ok a else .error (.of (.invalidOperand "-" a.text))

def wrongCount (op : Operator) (n : Nat) : EvalError :=
  .of (.arityMismatch op.name op.arity.text n)

def infer (op : Operator) (types : List Ty) : Except EvalError Ty :=
  match op, types with
  | .arith op, [a, b] => inferArith op a b
  | .compare op, [a, b] => inferCompare op a b
  | .negate, [a] => inferNegate a
  | .not, [_] => .ok .bool
  | .range, [a, b] => (rangeElement [a, b]).map .list
  | .range, [a, b, c] => (rangeElement [a, b, c]).map .list
  | op, types => .error (op.wrongCount types.length)

end Operator

end ExprCore
