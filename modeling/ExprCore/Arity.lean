/-!
The argument counts that a callable accepts.
-/

namespace ExprCore
set_option autoImplicit false

structure Arity where
  /-- Arguments that must be given. -/
  required : Nat
  /-- The largest count accepted; none if any number of further arguments may follow. -/
  max : Option Nat
  deriving DecidableEq, Inhabited

namespace Arity

def exact (n : Nat) : Arity := ⟨n, some n⟩

def between (required max : Nat) : Arity := ⟨required, some max⟩

def atLeast (required : Nat) : Arity := ⟨required, none⟩

def accepts (a : Arity) (n : Nat) : Bool :=
  a.required ≤ n &&
    match a.max with
    | some max => n ≤ max
    | none => true

def text (a : Arity) : String :=
  match a.max with
  | some max => if max = a.required then toString max else s!"{a.required} to {max}"
  | none => s!"at least {a.required}"

end Arity

end ExprCore
