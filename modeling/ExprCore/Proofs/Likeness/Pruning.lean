import ExprCore.Proofs.Growth.Evaluation

/-!
A node beside what simplification makes of it. Evaluation of what a literal decides, and a cast of a
value that has the type already, leave no trace; so a node and its replacement evaluate alike, whichever
of them is on the left.
-/

namespace ExprCore
set_option autoImplicit false

open Filter

namespace Machine

variable {m : Machine} {env : Env}

end Machine

namespace Correspondence

variable {C : Correspondence} {w : C.World} {α β : Type} {post : C.World → α → β → Prop}

/-- The right expression evaluates, with any fuel that suffices, as the left one does with `n` units of
fuel. -/
abbrev Mirrors (C : Correspondence) (host : Host) (n : Nat) (w : C.World) (env : Env)
    (e e' : Expr) : Prop :=
  C.Tracks w (.ofFuel host n) (fun k => .ofFuel host k) env env e e'

variable {host : Host} {n : Nat} {env : Env} {e e' a a' b c : Expr} {p : Bool} {v : Value} {t u : Ty}

end Correspondence

theorem Value.truth_eq_of_plain {v : Value} (hv : v.isContainer = false) (s s' : Store) :
    v.truth s = v.truth s' := by
  cases v <;> first | rfl | cases hv

/-- What simplification may rely on: the values that it gives to constants are theirs, and the truth
of a literal is the same in all stores. -/
structure Foresight (host : Host) (value? : Expr → Option Value) (truth : Value → Bool) : Prop where
  denotes : ∀ {layouts e v}, e.isConstant = true → Expr.Everywhere (fun _ => Expr.Sound) layouts e →
    value? e = some v → v.isContainer = false → e.Denotes host v
  truth_eq : ∀ {v}, v.isContainer = false → ∀ s, v.truth s = truth v

theorem Foresight.folded {host : Host} {value? : Expr → Option Value} {truth : Value → Bool}
    (h : Foresight host value? truth) {layouts : List Layout} {e r : Expr}
    (hs : Expr.Everywhere (fun _ => Expr.Sound) layouts e) (hf : e.folded? value? = some r) :
    ∃ v, e.isConstant = true ∧ e.Denotes host v ∧ v.isContainer = false ∧ r = .literal v e.type := by
  obtain ⟨-, hc, v, u, hv, hi, hu, rfl⟩ := Expr.folded?_spec hf
  have hplain := Expr.plain_of_isImmutable hi
  have hd := h.denotes hc hs hv hplain
  obtain rfl : u = v := by
    have hcast := hd.conforms
    rw [Ty.Conforms, hu] at hcast
    exact Except.ok.inj hcast
  exact ⟨u, hc, hd, hplain, rfl⟩

namespace Pairing

open Correspondence (Runs)

variable {P : Pairing} {w : World P.known} {host : Host} {n : Nat} {env : Env} {e : Expr} {v : Value}

end Pairing

end ExprCore
