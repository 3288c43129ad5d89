import ExprCore.Coerce
import ExprCore.Double.Remainder
import ExprCore.Run
import ExprCore.Value.Display
import ExprCore.Value.Equality

/-!
What the operators compute. Arithmetic on integers is exact or fails; `+` with a string on either
side joins the texts of both.
-/

namespace ExprCore
set_option autoImplicit false

/-- A number for arithmetic. Characters count as 32-bit integers. -/
inductive Num where
  | int (n : Int)
  | long (n : Int)
  | double (x : Float)

namespace Num

def of? : Value → Option Num
  | .char c => some (.int c.toNat)
  | .int n => some (.int n.toInt)
  | .long n => some (.long n.toInt)
  | .double x => some (.double x)
  | _ => none

def toFloat : Num → Float
  | .int n | .long n => Double.ofInt n
  | .double x => x

end Num

namespace Arith

/-- The exact result on integers, and whether it counts as one that fits, where `fits` says so of
results. A quotient is cut toward zero, and a remainder fits only if the quotient does. -/
def exact (op : Arith) (fits : Int → Bool) (m n : Int) : Int × Bool :=
  match op with
  | .add => (m + n, fits (m + n))
  | .sub => (m - n, fits (m - n))
  | .mul => (m * n, fits (m * n))
  | .div => (m.tdiv n, fits (m.tdiv n))
  | .rem => (m.tmod n, fits (m.tdiv n))

/-- Arithmetic on integers of one type, where `make?` tells which results it holds. -/
def onIntegers (op : Arith) (make? : Int → Option Value) (m n : Int) : Except EvalError Value :=
  if n = 0 ∧ (op = .div ∨ op = .rem) then .error (.of .divisionByZero) else
  let (result, fits) := op.exact (fun k => (make? k).isSome) m n
  match if fits then make? result else none with
  | some v => .ok v
  | none => .error (.overflow op.describe)

def onDoubles (op : Arith) (x y : Float) : Float :=
  match op with
  | .add => x + y
  | .sub => x - y
  | .mul => x * y
  | .div => x / y
  | .rem => Double.remainder x y

def onNumbers (op : Arith) (a b : Num) : Except EvalError Value :=
  match a, b with
  | .int m, .int n => op.onIntegers Value.int? m n
  | .int m, .long n | .long m, .int n | .long m, .long n => op.onIntegers Value.long? m n
  | a, b => .ok (.double (op.onDoubles a.toFloat b.toFloat))

def isText : Value → Bool
  | .str _ => true
  | _ => false

def invoke (op : Arith) (fuel : Nat) (a b : Value) : Run Value := do
  if op = .add ∧ (isText a ∨ isText b) then
    let s ← get
    let left ← Run.ofOption (a.display s fuel)
    let right ← Run.ofOption (b.display s fuel)
    pure (.str (left ++ right))
  else
    match Num.of? a, Num.of? b with
    | some m, some n => Run.ofExcept (op.onNumbers m n)
    | _, _ => Run.fail (.binaryTypeMismatch op.symbol a.typeName b.typeName)

end Arith

namespace Comparison

/-- The order of two floating-point numbers; none if one of them is not a number. -/
def orderDoubles (x y : Float) : Option Ordering :=
  if x < y then some .lt else if x == y then some .eq else if y < x then some .gt else none

def orderNumbers (a b : Num) : Option Ordering :=
  match a, b with
  | .int m, .int n | .int m, .long n | .long m, .int n | .long m, .long n => some (compare m n)
  | a, b => orderDoubles a.toFloat b.toFloat

/-- The order of two values that have one: numbers, strings and truth values. -/
def order? (a b : Value) : Option (Option Ordering) :=
  match Num.of? a, Num.of? b with
  | some m, some n => some (orderNumbers m n)
  | _, _ =>
    match a, b with
    | .str s, .str t => some (some (compareOfLessAndEq s t))
    | .bool p, .bool q => some (some (compare p.toNat q.toNat))
    | _, _ => none

def invoke (op : Comparison) (fuel : Nat) (a b : Value) : Run Value := do
  match order? a b with
  | some order => pure (.bool (op.holds order))
  | none =>
    if op.isEquality then
      let same ← Run.ofOption (Value.equal (← get) fuel a b)
      pure (.bool (same == decide (op = .eq)))
    else Run.fail (.binaryTypeMismatch op.symbol a.typeName b.typeName)

end Comparison

namespace Operator

def negateValue (v : Value) : Except EvalError Value :=
  let negated (n : Option Value) : Except EvalError Value :=
    match n with
    | some w => .ok w
    | none => .error (.overflow "negation")
  match Num.of? v with
  | some (.int n) => negated (Value.int? (-n))
  | some (.long n) => negated (Value.long? (-n))
  | some (.double x) => .ok (.double (-x))
  | none => .error (.of (.invalidOperand "-" v.typeName))

/-- True if `k` has not passed `last` in the direction of `step`. -/
def inReach (last step k : Int) : Bool := (0 < step && k ≤ last) || (step < 0 && last ≤ k)

/-- The numbers from `k` on by `step` that do not pass `last`, put in front of `walked` in reverse.
The walk also ends where the next number would leave 64 bits. Of the steps, `n` bounds how many
are taken. -/
def walk (last step : Int) : Nat → List Int → Int → List Int
  | 0, walked, _ => walked.reverse
  | n + 1, walked, k =>
    if inReach last step k then
      if (Value.long? (k + step)).isSome then walk last step n (k :: walked) (k + step)
      else (k :: walked).reverse
    else walked.reverse

/-- The numbers from `first` on by `step` that do not pass `last`. There are no more of them than
lie between the two. -/
def integralSteps (first last step : Int) : List Int :=
  walk last step ((last - first).natAbs + 1) [] first

/-- The floating-point numbers from `x` on by `step` that do not pass `last`. A step too small to
move on from a number is refused. -/
def walkDoubles (last step : Float) : Nat → List Value → Float → Run (List Value)
  | 0, _, _ => throw .exhausted
  | n + 1, walked, x =>
    if (0.0 < step && x ≤ last) || (step < 0.0 && last ≤ x) then
      let next := x + step
      if next == x then Run.fail (.custom "range step too small to advance")
      else walkDoubles last step n (.double x :: walked) next
    else pure walked.reverse

def doubleRange (fuel : Nat) (first last : Float) (step : Option Float) : Run Value := do
  let step := step.getD (if first ≤ last then 1.0 else -1.0)
  if !(first.isFinite && last.isFinite && step.isFinite) then
    Run.fail (.custom "range bounds and step must be finite")
  else if step == 0.0 then Run.fail (.custom "range step must be non-zero")
  else Run.newList (← walkDoubles last step fuel [] first)

def integralRange (elem : Ty) (first last : Int) (step : Option Int) : Run Value := do
  let step := step.getD (if first ≤ last then 1 else -1)
  if step = 0 then Run.fail (.custom "range step must be non-zero")
  else
    let items ← Run.ofExcept <|
      (integralSteps first last step).mapM fun n => elem.cast (.long (Int64.ofInt n))
    Run.newList items

def integer? : Num → Option Int
  | .int n | .long n => some n
  | .double _ => none

/-- The range over two ends and perhaps a step. The runtime types decide the element type, and
once there is one, all operands are numbers. -/
def rangeOver (fuel : Nat) (args : List Value) : Run Value := do
  let elem ← Run.ofExcept (rangeElement (args.map Value.ty))
  let nums := args.filterMap Num.of?
  match nums with
  | first :: last :: step =>
    if elem = .double then
      doubleRange fuel first.toFloat last.toFloat (step.head?.map Num.toFloat)
    else
      match integer? first, integer? last with
      | some m, some n => integralRange elem m n (step.head?.bind integer?)
      | _, _ => Run.fail (.typeMismatch "integral number" "double")
  | _ => Run.fail (.invalidOperand ".." "void")

def invoke (op : Operator) (fuel : Nat) (args : List Value) : Run Value :=
  match op, args with
  | .arith op, [a, b] => op.invoke fuel a b
  | .compare op, [a, b] => op.invoke fuel a b
  | .negate, [v] => Run.ofExcept (negateValue v)
  | .not, [v] => do pure (.bool (!v.truth (← get)))
  | .range, [_, _] | .range, [_, _, _] => rangeOver fuel args
  | op, args => throw (.error (op.wrongCount args.length))

end Operator

end ExprCore
