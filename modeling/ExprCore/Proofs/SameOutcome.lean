import ExprCore.Proofs.Likeness.HostCode
import ExprCore.Proofs.StoreTyping

/-!
What it means that a program and its optimized form do the same, and what is asked of the trees that
optimization is given.
-/

namespace ExprCore
set_option autoImplicit false

open Filter
open Correspondence (Ends)

/-- A run that does not end for want of fuel. -/
def Run.Finished (r : EStateM.Result Halt Store Value) : Prop := ∀ s, r ≠ .error .exhausted s

/-- Outcomes of a tree, and of the tree as `f` simplifies it, in frames of a store with cells of the
given types. Both yield values that are the same up to the addresses of new lists, or both fail with
one cause, in stores that are the same up to these addresses and up to the bodies of functions, which
`f` has simplified. -/
def SameOutcome (host : Host) (f : Expr → Expr) (types : List Ty) (s : Store)
    (r r' : EStateM.Result Halt Store Value) : Prop :=
  Ends (C := (Pairing.simplifying host s.known f).correspondence) ⟨s.known, types, le_rfl⟩
    (fun w => Value.Like w.links) r r'

/-- Two programs that do the same: a run of either that does not end for want of fuel is matched by the
other one with all fuel that suffices. -/
def SameRuns (host : Host) (f : Expr → Expr) (types : List Ty) (s : Store) (x y : Nat → Run Value) :
    Prop :=
  (∀ n, Run.Finished (x n s) →
      ∃ r, (∀ᶠ k in atTop, y k s = r) ∧ SameOutcome host f types s (x n s) r) ∧
    ∀ n, Run.Finished (y n s) →
      ∃ r, (∀ᶠ k in atTop, x k s = r) ∧ SameOutcome host f types s r (y n s)

theorem SameRuns.like {host : Host} {f : Expr → Expr} {types : List Ty} {s s₁ s₂ : Store}
    {x y : Nat → Run Value} (h : SameRuns host f types s x y) {n m : Nat} {v v' : Value}
    (hx : x n s = .ok v s₁) (hy : ∀ k, y (k + m) s = .ok v' s₂) : ∃ ρ, Value.Like ρ v v' := by
  obtain ⟨r, hr, hends⟩ := h.1 n fun s₃ hs => by rw [hx] at hs; cases hs
  obtain ⟨k, hk⟩ := eventually_atTop.mp hr
  rw [SameOutcome, hx, ← hk (k + m) (Nat.le_add_right k m), hy k] at hends
  cases hends with
  | ok _ _ hv => exact ⟨_, hv⟩

namespace Expr

/-- What the constructors promise of the nodes of a tree that is not resolved yet. The containers that
its literals hold are those of a store. -/
def Source (known : Links) : Expr → Prop
  | .literal v t => Value.Like known v v ∧ t.Conforms v
  | .var _ => False
  | .lambda signature _ => KnownDefaults known signature.params
  | e => (∀ op, e.operation? = some op → op.Uniform false known) ∧
    ∀ target ∈ e.targets, target.isAssignable = true

variable {known : Links} {layouts : List Layout} {e : Expr}

theorem Source.fits (h : e.Source known) (layouts : List Layout) : e.Fits false known layouts := by
  cases e with
  | literal v t => exact h.1
  | var b => exact h.elim
  | _ => exact h

variable {value? : Expr → Option Value} {truth : Value → Bool} {f : Expr → Expr} {maxLevel : Nat}
  {scope : Scope}

end Expr

namespace Pairing

variable {C : Correspondence} {w : C.World}

end Pairing

namespace Sample

def store : Store := { cells := #[.int 5] }

def env : Env := [⟨[⟨"x", .int, false⟩], 0⟩]

def slot : Expr := .var ⟨"x", 0, 0, 0, false, .int⟩

end Sample

end ExprCore
