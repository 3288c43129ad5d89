import ExprCore.Proofs.ContainerCycles
import ExprCore.Proofs.OperatorTyping
import ExprCore.Proofs.OptimizationRuns

/-!
Constants that come to an end. All that a constant walks over are the containers that its literals hold: without a
cycle in these its evaluation ends, with an error or with a value that has no cycle either. Ranges are left out,
since the operands of a range do not tell how many floating-point numbers it takes.
-/

namespace ExprCore
set_option autoImplicit false

open Value (PartOf)

variable {α β : Type} {s : Store} {P : α → Prop} {Q : β → Prop}

/-- A computation comes to the same end on all fuel from some amount on, in the store in which it starts: it fails,
or yields a value of which `P` holds. -/
inductive Run.Concludes (s : Store) (P : α → Prop) (x : Nat → Run α) : Prop where
  | value {n : Nat} {a : α} (ha : P a) (h : ∀ m, n ≤ m → x m s = .ok a s)
  | error {n : Nat} {e : EvalError} (h : ∀ m, n ≤ m → x m s = .error (.error e) s)

namespace Run.Concludes

theorem pure {a : α} (ha : P a) : Concludes s P fun _ => Pure.pure a := .value (n := 0) ha fun _ _ => rfl

theorem fail (kind : ErrorKind) : Concludes s P fun _ => Run.fail kind := .error (n := 0) fun _ _ => rfl

theorem ofExcept {r : Except EvalError α} (h : ∀ a, r = .ok a → P a) : Concludes s P fun _ => Run.ofExcept r := by
  cases r with
  | ok a => exact .pure (h a rfl)
  | error e => exact .error (n := 0) fun _ _ => rfl

theorem bind {x : Nat → Run α} {f : Nat → α → Run β} (hx : Concludes s P x)
    (hf : ∀ a, P a → Concludes s Q fun n => f n a) : Concludes s Q fun n => x n >>= f n := by
  cases hx with
  | @value n a ha hx =>
    have hrun (m : Nat) (hm : n ≤ m) : (x m >>= f m) s = f m a s := bind_ok (f m) (hx m hm)
    cases hf a ha with
    | @value k b hb hy =>
      exact .value (n := max n k) hb fun m hm =>
        (hrun m (le_trans (Nat.le_max_left n k) hm)).trans (hy m (le_trans (Nat.le_max_right n k) hm))
    | @error k e hy =>
      exact .error (n := max n k) fun m hm =>
        (hrun m (le_trans (Nat.le_max_left n k) hm)).trans (hy m (le_trans (Nat.le_max_right n k) hm))
  | error hx => exact .error fun m hm => bind_error (f m) (hx m hm)

theorem get : Concludes s (· = s) fun _ => MonadState.get := .value (n := 0) rfl fun _ _ => rfl

theorem succ {x : Nat → Run α} (h : Concludes s P fun n => x (n + 1)) : Concludes s P x := by
  cases h with
  | @value n a ha h =>
    refine .value (n := n + 1) ha fun m hm => ?_
    obtain ⟨m, rfl⟩ := Nat.exists_eq_add_of_le' (Nat.le_of_add_left_le hm)
    exact h m (by omega)
  | @error n e h =>
    refine .error (n := n + 1) (e := e) fun m hm => ?_
    obtain ⟨m, rfl⟩ := Nat.exists_eq_add_of_le' (Nat.le_of_add_left_le hm)
    exact h m (by omega)

end Run.Concludes

open Run (Concludes)

/-! ### Operators -/

variable {v w : Value}

namespace Machine

variable {host : Host} {env : Env} {P : Value → Prop}

end Machine

namespace Expr

variable {host : Host} {env : Env} {layouts : List Layout} {e : Expr}

end Expr

end ExprCore
