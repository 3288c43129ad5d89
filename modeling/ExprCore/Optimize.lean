import ExprCore.Eval
import ExprCore.Expr.Build
import ExprCore.Expr.Pass
import ExprCore.Expr.Size

/-!
Simplification of trees. Level 1 evaluates constant subtrees ahead of time and drops casts to the
type that the operand has; level 2 also picks branches by literal conditions and drops literals
whose values nobody takes. Every step keeps the static type of the node.
-/

namespace ExprCore
set_option autoImplicit false

/-- The values that a folded literal may hold. A container is not among them, since a literal is
shared by all its evaluations. -/
def Value.isImmutable : Value → Bool
  | .void | .null | .bool _ | .char _ | .int _ | .long _ | .double _ | .str _ => true
  | _ => false

/-- The types of which folding is tried. -/
def Ty.isScalar : Ty → Bool
  | .void | .null | .bool | .char | .int | .long | .double | .str | .any => true
  | _ => false

namespace Expr

mutual

/-- True for the nodes whose values have the static type of the node, so that a cast to it does
nothing. Elements, members and results of calls are not among them: a list stores whatever it is
given, and a function may return anything. -/
def holdsType : Expr → Bool
  | .literal .. | .var _ | .cast .. | .operator .. | .logical .. | .instanceOf ..
  | .conditional .. | .block .. | .tryCatch .. => true
  | .sequence items => lastHoldsType items
  | .before first _ => first.holdsType
  | _ => false

def lastHoldsType : List Expr → Bool
  | [] => true
  | [e] => e.holdsType
  | _ :: es => lastHoldsType es

end

/-- A literal in place of a constant subtree, where `value?` evaluates it. A subtree that fails is
left alone, so that the error arises when the tree is evaluated. -/
def folded? (value? : Expr → Option Value) (e : Expr) : Option Expr :=
  if e.literal?.isSome || !e.isConstant || !e.type.isScalar then none else
  match value? e with
  | some v => if v.isImmutable then (typedLiteral v e.type).toOption else none
  | none => none

def dropCast? : Expr → Option Expr
  | .cast target operand =>
    if operand.type = target && operand.holdsType then some operand else none
  | _ => none

def atType (e : Expr) (t : Ty) : Expr :=
  if e.type = t && e.holdsType then e else .cast t e

def isBool (e : Expr) : Bool := decide (e.type = .bool) && e.holdsType

/-- The items of a sequence without the literals before the last item. -/
def withoutLiterals : List Expr → List Expr
  | [] => []
  | [e] => [e]
  | e :: es => if e.literal?.isSome then withoutLiterals es else e :: withoutLiterals es

def pruneSequence? (items : List Expr) : Option Expr :=
  match withoutLiterals items with
  | [only] => some only
  | kept => if kept.length < items.length then some (.sequence kept) else none

def pruneLogical? (op : Connective) (left : Bool) (rhs : Expr) : Option Expr :=
  match op, left with
  | .and, false => some (ofValue (.bool false))
  | .or, true => some (ofValue (.bool true))
  | _, _ => if rhs.isBool then some rhs else none

/-- Drops what a literal decides, where `truth` is the truth of a value. -/
def prune? (truth : Value → Bool) (e : Expr) : Option Expr :=
  match e with
  | .conditional cond thenBranch elseBranch =>
    cond.literal?.map fun v => (if truth v then thenBranch else elseBranch).atType e.type
  | .sequence items => pruneSequence? items
  | .before first second => second.literal?.map fun _ => first
  | .logical op lhs rhs => lhs.literal?.bind fun v => pruneLogical? op (truth v) rhs
  | _ => none

/-- One step of simplification at a node. -/
def simplify? (value? : Expr → Option Value) (truth : Value → Bool) (level : Nat) (e : Expr) :
    Option Expr :=
  (e.folded? value?).or <| e.dropCast?.or <| if 2 ≤ level then e.prune? truth else none

/-- Repeats a step as long as it applies, at most as often as the first argument says. -/
def settle (step? : Expr → Option Expr) : Nat → Expr → Revised Expr
  | 0, e => ⟨e, false⟩
  | n + 1, e =>
    match step? e with
    | none => ⟨e, false⟩
    | some next => ⟨(settle step? n next).value, true⟩

/-- Simplification of every node. A step makes a node smaller or a literal, so that there are no
more steps than nodes and one. -/
def simplification (value? : Expr → Option Value) (truth : Value → Bool) (level : Nat) :
    Pass Unit where
  enterBlock _ _ := ()
  enterFunction _ _ := ()
  rule _ e := settle (simplify? value? truth level) (e.size + 1) e

/-- The value of an expression outside all frames, if it has one. -/
def value? (host : Host) (fuel : Nat) (s : Store) (e : Expr) : Option Value :=
  match (eval host fuel [] e).run s with
  | .ok v _ => some v
  | .error _ _ => none

/-- Simplifies a tree whose literals refer to the given store. What evaluation ahead of time does to
the store is dropped. -/
def optimize (host : Host) (fuel : Nat) (level : Nat) (s : Store) (e : Expr) : Revised Expr :=
  if level = 0 then ⟨e, false⟩
  else (simplification (value? host fuel s) (Value.truth s) level).revise () e

end Expr

end ExprCore
