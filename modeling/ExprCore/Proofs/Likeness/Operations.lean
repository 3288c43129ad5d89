import ExprCore.Proofs.Likeness.Stores
import ExprCore.Proofs.Resolution

/-!
Operations on corresponding stores, and what host code does to values by them: each keeps the
correspondence and yields like values.
-/

namespace ExprCore
set_option autoImplicit false

open Filter
open Correspondence (Runs Outcome)

theorem Instance.member?_spec {o : Instance} {name : String} {r : Ref} {t : Ty}
    (h : o.member? name = some (r, t)) :
    ∃ i, r = o.base + i ∧ (o.members.map Prod.snd)[i]? = some t := by
  obtain ⟨⟨i, slot⟩, hl, he⟩ := Option.map_eq_some_iff.mp h
  cases he
  have hs := (Layout.lookup?_spec hl).1
  rw [List.getElem?_map] at hs
  obtain ⟨member, hm, rfl⟩ := Option.map_eq_some_iff.mp hs
  exact ⟨i, rfl, by rw [List.getElem?_map, hm]; rfl⟩

namespace Pairing

variable {P : Pairing} {w : World P.known} {v v' : Value}

abbrev Yields (P : Pairing) (w : World P.known) (x : Run Value) (y : Nat → Run Value) : Prop :=
  Runs (C := P.correspondence) w (fun w => Value.Like w.links) x y

theorem default_plain (t : Ty) : t.default.isContainer = false := by
  cases t <;> rfl

end Pairing

end ExprCore
