import ExprCore.Proofs.Likeness.Operations

/-!
Calls on corresponding stores: host programs that treat containers alike end alike, and a call of
functions that stand for each other is matched as soon as the evaluation of their bodies is.
-/

namespace ExprCore
set_option autoImplicit false

open Filter
open Correspondence (Runs runs_operator)

/-- A relation that is kept as links are added. -/
def Links.Kept {α : Type} (R : Links → α → α → Prop) : Prop :=
  ∀ ρ σ, ρ ≤ σ → ∀ a a', R ρ a a' → R σ a a'

theorem Value.Like.kept : Links.Kept Value.Like := fun _ _ h _ _ => Value.Like.mono h

theorem EvalError.Like.kept (strict : Bool) : Links.Kept (EvalError.Like strict) :=
  fun _ _ h _ _ => EvalError.Like.mono h

inductive HostProgram.Results {ε α : Type} (E : Links → ε → ε → Prop) (R : Links → α → α → Prop)
    (ρ : Links) : Except ε α → Except ε α → Prop where
  | ok {a a' : α} (h : R ρ a a') : Results E R ρ (.ok a) (.ok a')
  | error {e e' : ε} (h : E ρ e e') : Results E R ρ (.error e) (.error e')

/-- The arguments that a function may be invoked with: those of a closure have the types of the slots
of its frame. -/
def Callable.Takes (f : Callable) (args : List Value) : Prop :=
  match f with
  | .closure f => List.Forall₂ (fun slot v => slot.type.Conforms v) f.signature.layout args
  | _ => True

theorem Closure.bindParams_conforms {name : String} {params : List Param} {i : Nat}
    {args vs : List Value} (h : bindParams name i params args = .ok vs) :
    List.Forall₂ (fun (p : Param) v => p.type.Conforms v) params vs := by
  induction params generalizing i args vs with
  | nil => cases h; exact .nil
  | cons p params ih =>
    simp only [bindParams] at h
    generalize hc : p.type.castNoting _ _ = x at h
    cases x with
    | error e => cases h
    | ok v =>
      generalize hb : bindParams name (i + 1) params args.tail = y at h
      cases y with
      | error e => cases h
      | ok ws =>
        cases h
        exact .cons (Ty.conforms_of_castNoting hc) (ih hb)

namespace Pairing

variable {P : Pairing} {w : World P.known} {v v' : Value}

/-- Calls of functions with like arguments, as host programs make them. -/
def Calls (P : Pairing) (call : Ref → List Value → Run Value)
    (call' : Nat → Ref → List Value → Run Value) : Prop :=
  ∀ w f args args', Value.Likes w.links args args' →
    P.Yields w (call f args) fun k => call' k f args'

variable {m : Machine} {m' : Nat → Machine}

end Pairing

end ExprCore
