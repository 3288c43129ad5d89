import ExprCore.Cast
import Mathlib.Data.List.Forall2

/-!
Values that already have a type. A value conforms to a type if conversion leaves it alone; whatever a
conversion yields conforms, and so does the value that a fresh slot holds.
-/

namespace ExprCore
set_option autoImplicit false

theorem mapM_eq_ok_iff {ε α β : Type} {f : α → Except ε β} {as : List α} {bs : List β} :
    as.mapM f = .ok bs ↔ List.Forall₂ (fun a b => f a = .ok b) as bs := by
  induction as generalizing bs with
  | nil => cases bs <;> simp [pure, Except.pure]
  | cons a as ih =>
    rw [List.mapM_cons]
    cases ha : f a with
    | error e => cases bs <;> simp [bind, Except.bind, ha]
    | ok b =>
      cases has : as.mapM f with
      | error e => cases bs <;> simp [bind, Except.bind, ha, ← ih, has]
      | ok bs' => cases bs <;> simp [bind, Except.bind, pure, Except.pure, ha, ← ih, has]

theorem mapM_eq_error {ε α β : Type} {f : α → Except ε β} {as : List α} {e : ε}
    (h : ∀ a ∈ as, (∃ b, f a = .ok b) ∨ f a = .error e) (he : ∃ a ∈ as, f a = .error e) :
    as.mapM f = .error e := by
  induction as with
  | nil =>
    obtain ⟨a, ha, -⟩ := he
    cases ha
  | cons a as ih =>
    rw [List.mapM_cons]
    rcases h a List.mem_cons_self with ⟨b, hb⟩ | ha
    · obtain ⟨a', ha', hfail⟩ := he
      have hmem : a' ∈ as := by
        rcases List.mem_cons.mp ha' with rfl | hmem
        · cases hb.symm.trans hfail
        · exact hmem
      rw [hb, ih (fun x hx => h x (List.mem_cons_of_mem a hx)) ⟨a', hmem, hfail⟩]
      rfl
    · rw [ha]
      rfl

theorem exists_forall₂ {α β : Type} {R : α → β → Prop} {as : List α} (h : ∀ a ∈ as, ∃ b, R a b) :
    ∃ bs, List.Forall₂ R as bs := by
  induction as with
  | nil => exact ⟨[], .nil⟩
  | cons a as ih =>
    obtain ⟨b, hb⟩ := h a List.mem_cons_self
    obtain ⟨bs, hbs⟩ := ih fun x hx => h x (List.mem_cons_of_mem a hx)
    exact ⟨b :: bs, .cons hb hbs⟩

theorem exists_of_forall₂ {α β : Type} {R : α → β → Prop} {as : List α} {bs : List β}
    (h : List.Forall₂ R as bs) : ∀ b ∈ bs, ∃ a ∈ as, R a b := by
  induction h with
  | nil => exact List.forall_mem_nil _
  | @cons a b _ _ hab _ ih =>
    intro b' hb
    rcases List.mem_cons.mp hb with rfl | hb
    · exact ⟨a, List.mem_cons_self, hab⟩
    · obtain ⟨a', ha, hR⟩ := ih b' hb
      exact ⟨a', List.mem_cons_of_mem _ ha, hR⟩

namespace Value

theorem truncated?_of_int? {n : Int} {w : Value} (h : int? n = some w) :
    w.truncated? = some n := by
  unfold int? at h
  split at h
  · rename_i hn
    cases h
    exact congrArg some (Int32.toInt_ofInt_of_le hn.1 hn.2)
  · cases h

theorem truncated?_of_long? {n : Int} {w : Value} (h : long? n = some w) :
    w.truncated? = some n := by
  unfold long? at h
  split at h
  · rename_i hn
    cases h
    exact congrArg some (Int64.toInt_ofInt_of_le hn.1 hn.2)
  · cases h

theorem truncated?_of_char? {n : Int} {w : Value} (h : char? n = some w) :
    w.truncated? = some n := by
  unfold char? at h
  split at h
  · rename_i hn
    cases h
    have hc : (Char.ofNat n.toNat).toNat = n.toNat := by
      rw [Char.ofNat, dif_pos hn.2]
      rfl
    have hz : ((n.toNat : Nat) : Int) = n := Int.toNat_of_nonneg hn.1
    simp only [truncated?, integral?, hc, hz]
  · cases h

def isContainer : Value → Bool
  | .buffer _ | .list _ | .array .. | .map _ => true
  | _ => false

end Value

namespace Ty

/-- A value that the type already describes: conversion leaves it alone. -/
def Conforms (t : Ty) (v : Value) : Prop := t.cast v = .ok v

theorem castIntegral_idempotent {t : Ty} {make? : Int → Option Value}
    (hm : ∀ {n w}, make? n = some w → w.truncated? = some n) {v w : Value}
    (h : castIntegral t make? v = .ok w) : castIntegral t make? w = .ok w := by
  unfold castIntegral at h
  split at h
  · cases h
  · split at h
    · cases h
    · rename_i n _ u hu
      cases h
      simp only [castIntegral, hm hu, hu]

theorem castDouble_idempotent {v w : Value} (h : castDouble v = .ok w) : castDouble w = .ok w := by
  unfold castDouble at h
  split at h
  · cases h; rfl
  · split at h
    · cases h
    · cases h; rfl

theorem cast_eq_self {t : Ty} {v w : Value} (ht : t.isNumeric = false) (hv : t ≠ .void)
    (h : t.cast v = .ok w) : w = v := by
  cases t
  case void => exact absurd rfl hv
  case any => cases h; rfl
  case char | int | long | double => cases ht
  all_goals
    cases v <;> simp only [cast, isReference, Value.isNull, Bool.and_true, Bool.and_false,
      Bool.false_eq_true, if_true, if_false] at h <;> (try split at h) <;> cases h <;> rfl

theorem castIntegral_plain {t : Ty} {make? : Int → Option Value}
    (hm : ∀ {n w}, make? n = some w → w.truncated? = some n) {v w : Value}
    (h : castIntegral t make? v = .ok w) : w.isContainer = false := by
  unfold castIntegral at h
  split at h
  · cases h
  · split at h
    · cases h
    · rename_i u hu
      cases h
      have ht := hm hu
      cases w <;> first | rfl | cases ht

theorem castDouble_plain {v w : Value} (h : castDouble v = .ok w) : w.isContainer = false := by
  unfold castDouble at h
  split at h
  · cases h; rfl
  · split at h
    · cases h
    · cases h; rfl

theorem eq_of_cast_container {t : Ty} {v w : Value} (h : t.cast v = .ok w)
    (hw : w.isContainer = true) : w = v := by
  have hf {u : Bool} (h : u = false) (g : u = true) : w = v := by rw [h] at g; cases g
  cases t
  case char => exact hf (castIntegral_plain Value.truncated?_of_char? h) hw
  case int => exact hf (castIntegral_plain Value.truncated?_of_int? h) hw
  case long => exact hf (castIntegral_plain Value.truncated?_of_long? h) hw
  case double => exact hf (castDouble_plain h) hw
  case void => cases h; cases hw
  all_goals exact cast_eq_self rfl (by nofun) h

theorem plain_of_cast {t : Ty} {v w : Value} (hv : v.isContainer = false) (h : t.cast v = .ok w) :
    w.isContainer = false := by
  cases hw : w.isContainer with
  | false => rfl
  | true =>
    rw [eq_of_cast_container h hw, hv] at hw
    cases hw

theorem conforms_of_cast {t : Ty} {v w : Value} (h : t.cast v = .ok w) : t.Conforms w := by
  unfold Conforms
  cases t
  case char => exact castIntegral_idempotent Value.truncated?_of_char? h
  case int => exact castIntegral_idempotent Value.truncated?_of_int? h
  case long => exact castIntegral_idempotent Value.truncated?_of_long? h
  case double => exact castDouble_idempotent h
  case void => cases h; rfl
  all_goals
    have hw := cast_eq_self rfl (by nofun) h
    rwa [hw] at h ⊢

theorem cast_of_castNoting {t : Ty} {note : String} {v w : Value}
    (h : t.castNoting note v = .ok w) : t.cast v = .ok w := by
  unfold castNoting at h
  cases hc : t.cast v with
  | ok u =>
    rw [hc] at h
    cases h
    rfl
  | error e => rw [hc] at h; cases h

theorem conforms_of_castNoting {t : Ty} {note : String} {v w : Value}
    (h : t.castNoting note v = .ok w) : t.Conforms w :=
  conforms_of_cast (cast_of_castNoting h)

theorem conforms_of_mapM {α : Type} {t : Ty} {f : α → Value} {as : List α} {ws : List Value}
    (h : as.mapM (fun a => t.cast (f a)) = .ok ws) : ws.length = as.length ∧ ∀ w ∈ ws, t.Conforms w := by
  have hws := mapM_eq_ok_iff.mp h
  refine ⟨hws.length_eq.symm, fun w hw => ?_⟩
  obtain ⟨a, -, hc⟩ := exists_of_forall₂ hws w hw
  exact conforms_of_cast hc

theorem Conforms.castNoting {t : Ty} {v : Value} (h : t.Conforms v) (note : String) :
    t.castNoting note v = .ok v := by
  rw [Ty.castNoting, h]
  rfl

theorem conforms_any (v : Value) : any.Conforms v := rfl

theorem conforms_default (t : Ty) : t.Conforms t.default := by
  cases t <;> rfl

theorem conforms_list (elem : Ty) (r : Ref) : (list elem).Conforms (.list r) := rfl

theorem conforms_bool (b : Bool) : bool.Conforms (.bool b) := rfl

/-- What a conversion fails with. -/
def IsCastError (e : EvalError) : Prop :=
  (∃ expected got, e = .typeMismatch expected got) ∨ ∃ operation, e = .overflow operation

theorem castIntegral_error {t : Ty} {make? : Int → Option Value} {v : Value} {e : EvalError}
    (h : castIntegral t make? v = .error e) : IsCastError e := by
  unfold castIntegral at h
  split at h
  · cases h
    exact .inl ⟨_, _, rfl⟩
  · split at h <;> cases h
    exact .inr ⟨_, rfl⟩

theorem castDouble_error {v : Value} {e : EvalError} (h : castDouble v = .error e) : IsCastError e := by
  unfold castDouble at h
  split at h
  · cases h
  · split at h <;> cases h
    exact .inl ⟨_, _, rfl⟩

theorem isCastError_of_cast {t : Ty} {v : Value} {e : EvalError} (h : t.cast v = .error e) :
    IsCastError e := by
  cases t
  case char => exact castIntegral_error h
  case int => exact castIntegral_error h
  case long => exact castIntegral_error h
  case double => exact castDouble_error h
  case any | void => cases h
  all_goals
    cases v <;> simp only [cast, isReference, Value.isNull, Bool.and_true, Bool.and_false,
      Bool.false_eq_true, if_true, if_false] at h <;> (try split at h) <;> cases h <;>
      exact .inl ⟨_, _, rfl⟩

theorem cast_error {t : Ty} {v : Value} {e : EvalError} (h : t.cast v = .error e) :
    e.returned? = none := by
  rcases isCastError_of_cast h with ⟨_, _, rfl⟩ | ⟨_, rfl⟩ <;> rfl

end Ty

end ExprCore
