import ExprCore.Operation
import ExprCore.Scope

/-!
Expression trees. A name is free until resolution replaces it by the slot that it stands for.
-/

namespace ExprCore
set_option autoImplicit false

inductive OperatorForm where
  | unary
  | binary
  | ternary
  deriving DecidableEq

inductive Connective where
  | and
  | or
  deriving DecidableEq

inductive AssignMode where
  | assign
  /-- The first write of a slot, which is allowed on final slots too. -/
  | declare
  deriving DecidableEq

inductive Step where
  | preInc
  | preDec
  | postInc
  | postDec
  deriving DecidableEq

namespace Step

def delta : Step → Int32
  | .preInc | .postInc => 1
  | .preDec | .postDec => -1

def symbol : Step → String
  | .preInc | .postInc => "++"
  | .preDec | .postDec => "--"

def yieldsNew : Step → Bool
  | .preInc | .preDec => true
  | .postInc | .postDec => false

end Step

inductive MemberKind where
  | hostField
  /-- An entry of a map; reading one that is missing yields null. -/
  | mapEntry
  | classMember
  deriving DecidableEq

structure Param where
  name : String
  type : Ty
  /-- Taken when the caller leaves the argument out. -/
  default : Option Value
  deriving Inhabited

structure Signature where
  name : Option String
  params : List Param
  /-- The name of the list that collects further arguments. -/
  rest : Option String
  ret : Ty
  deriving Inhabited

/-- The frame of a call: the parameters in order, then the list of further arguments. -/
def Signature.layout (f : Signature) : Layout :=
  f.params.map (fun p => ⟨p.name, p.type, false⟩) ++
    f.rest.toList.map fun name => ⟨name, .list .any, false⟩

inductive Expr where
  | literal (value : Value) (type : Ty)
  | name (name : String)
  | var (binding : Binding)
  /-- Stands for the frame `hops` frames out. It is never evaluated. -/
  | scopeRef (hops : Nat)
  | operator (form : OperatorForm) (op : Operation) (operands : List Expr)
  | logical (op : Connective) (lhs rhs : Expr)
  | conditional (cond thenBranch elseBranch : Expr)
  | sequence (items : List Expr)
  | before (first second : Expr)
  | cast (target : Ty) (operand : Expr)
  | instanceOf (operand : Expr) (target : Ty)
  | assign (mode : AssignMode) (target value : Expr)
  /-- Assigns the result of an operator on the value of the target, cast to `result` if given. -/
  | compound (op : Operation) (target value : Expr) (result : Option Ty)
  | step (step : Step) (target : Expr)
  | index (base index : Expr)
  | slice (base lo hi : Expr)
  | member (kind : MemberKind) (object : Expr) (name : String)
  | staticField (className field : String)
  | methodCall (receiver : Expr) (method : String) (args : List Expr)
  | staticCall (className method : String) (args : List Expr)
  | new (className : String) (args : List Expr)
  | apply (callee : Expr) (args : List Expr)
  | lambda (signature : Signature) (body : Expr)
  | block (layout : Layout) (body : List Expr) (ret : Ty)
  | earlyReturn (value : Expr)
  | arrayLiteral (elem : Ty) (items : List Expr)
  | arrayAlloc (elem : Ty) (length : Expr)
  | listLiteral (elem : Ty) (items : List Expr)
  /-- Appends items to a list that another expression supplies. -/
  | extendList (list : Expr) (elem : Ty) (items : List Expr)
  | mapLiteral (value : Ty) (entries : List (Expr × Expr))
  | extendMap (map : Expr) (value : Ty) (entries : List (Expr × Expr))
  | loop (cond body : Expr)
  /-- On an error, writes its message to the binding and evaluates the handler. -/
  | tryCatch (body binding handler : Expr)
  | raise (message : Expr)
  deriving Inhabited

namespace Expr

def isPlace : Expr → Bool
  | .var _ | .index .. | .member .. | .staticField .. => true
  | _ => false

/-- The nodes that may be assigned to: places, and free names, which will resolve to one. -/
def isAssignable : Expr → Bool
  | .name _ => true
  | e => e.isPlace

def literal? : Expr → Option Value
  | .literal v _ => some v
  | _ => none

end Expr

end ExprCore
