import ExprCore.Eval
import ExprCore.Host.Classes
import ExprCore.Proofs.Integers
import ExprCore.Proofs.OperatorTyping
import ExprCore.Proofs.TypeOrder

/-!
Conversion to a join. A value of one of two types converts to their join, so a conditional or a handled
body does not fail after its branch has yielded a value of the type of the branch. Only arrays may be
refused: where the join makes `void` of a part of their elements, it is no type of theirs.
-/

namespace ExprCore
set_option autoImplicit false

variable {a b t : Ty} {v : Value}

namespace Ty

/-- True if the join with a type makes `void` of a part of the elements of arrays. -/
def voidsElements : Ty → Ty → Bool
  | .array b, .array a => b.voids a
  | _, _ => false

theorem castIntegral_widens {t : Ty} {n : Int} (hv : v.integral? = some n) (ht : t.Holds n) :
    ∃ w, castIntegral t (Value.ofInteger? t) v = .ok w := by
  obtain ⟨w, hw, -⟩ := Value.exists_ofInteger? ht
  have hn : v.truncated? = some n := by
    cases v <;> first | exact hv | cases hv
  refine ⟨w, ?_⟩
  simp only [castIntegral, hn, hw]

theorem cast_widens {m n : Nat} (hv : a.Conforms v) (ha : a.rank? = some m) (hb : b.rank? = some n)
    (h : m ≤ n) : ∃ w, b.cast v = .ok w := by
  have hty : v.ty = a := hv.ty_eq (by rw [isNumeric, ha]; rfl)
  subst hty
  cases v with
  | char c =>
    cases b with
    | char => exact ⟨_, hv⟩
    | int => exact castIntegral_widens (t := .int) (v := .char c) rfl (holds_toNat c)
    | long =>
      exact castIntegral_widens (t := .long) (v := .char c) rfl (holds_long_of_int (holds_toNat c))
    | double => exact ⟨_, rfl⟩
    | _ => cases hb
  | int k =>
    cases b with
    | char => cases ha; cases hb; cases h
    | int => exact ⟨_, hv⟩
    | long =>
      exact castIntegral_widens (t := .long) (v := .int k) rfl (holds_long_of_int (holds_toInt32 k))
    | double => exact ⟨_, rfl⟩
    | _ => cases hb
  | long k =>
    cases b with
    | char | int => cases ha; cases hb; omega
    | long => exact ⟨_, hv⟩
    | double => exact ⟨_, rfl⟩
    | _ => cases hb
  | double x =>
    cases b with
    | char | int | long => cases ha; cases hb; omega
    | double => exact ⟨_, hv⟩
    | _ => cases hb
  | _ => cases ha

theorem cast_null (h : t.isReference = true) : t.cast .null = .ok .null := by
  cases t <;> first | rfl | cases h

theorem cast_array_iff {elem elem' : Ty} {r : Ref} :
    (∃ w, (array elem).cast (.array elem' r) = .ok w) ↔ elem.contains elem' = true := by
  rw [cast]
  split
  · rename_i h
    exact iff_of_true ⟨_, rfl⟩ h
  · rename_i h
    refine iff_of_false ?_ h
    rintro ⟨w, hw⟩
    cases hw

theorem cast_union (hv : a.Conforms v) (h : b.voidsElements a = false) :
    ∃ w, (a.union b).cast v = .ok w := by
  fun_induction union a b with
  | case1 | case8 | case14 => exact ⟨_, hv⟩
  | case2 | case3 => exact ⟨_, rfl⟩
  | case4 | case5 | case7 | case9 | case16 => exact ⟨v, rfl⟩
  | case6 b _ _ href =>
    cases v with
    | null => exact ⟨_, cast_null href⟩
    | _ => cases hv
  | case10 | case12 | case13 => cases v <;> first | exact ⟨_, rfl⟩ | cases hv
  | case11 a b _ _ =>
    cases v with
    | null => exact ⟨_, rfl⟩
    | array elem r =>
      have ha : a.contains elem = true := cast_array_iff.mp ⟨_, hv⟩
      have hab : Below false a (a.union b) := (below_union a b).1 (.inr h)
      exact cast_array_iff.mpr (contains_iff.mpr ((contains_iff.mp ha).trans hab))
    | _ => cases hv
  | case15 a b _ _ _ _ _ _ _ _ _ _ m n hn hm hle =>
    exact cast_widens hv hm hn (Nat.le_of_not_le hle)

theorem not_contains_union (h : b.voids a = true) : (a.union b).contains a = false := by
  have inside {f : Ty → Ty} (hf : f ∈ wrappers) {a b : Ty} (h : (a.union b).contains a = false) :
      ((f a).union (f b)).contains (f a) = false := by
    rw [union_inside hf, contains_inside hf]
    exact h
  fun_induction voids b a with
  | case1 t =>
    have ht : t ≠ .void := of_decide_eq_true h
    cases t <;> first | rfl | exact absurd rfl ht
  | case2 b a ih | case3 b a ih | case4 b a ih | case5 b a ih =>
    exact inside (by simp [wrappers]) (ih h)
  | case6 => cases h

theorem cast_union_fails (h : b.voidsElements a = true) :
    ∃ v, a.Conforms v ∧ ¬∃ w, (a.union b).cast v = .ok w := by
  unfold voidsElements at h
  split at h
  · rename_i b a
    refine ⟨.array a 0, ?_, ?_⟩
    · rw [Conforms, cast, if_pos (contains_self a)]
    · rw [union_inside (f := array) (by simp [wrappers]), cast_array_iff, not_contains_union h]
      exact Bool.false_ne_true
  · cases h

end Ty

namespace Machine

variable {m : Machine} {env : Env} {e f cond binding : Expr} {s s₀ s₁ : Store} {w : Value}

theorem evalConditional_ok {c : Value} (hc : m.eval env cond s = .ok c s₀)
    (hv : m.eval env (if c.truth s₀ then e else f) s₀ = .ok v s₁) (hw : t.cast v = .ok w) :
    m.evalConditional env cond e f t s = .ok w s₁ := by
  have htruth : m.truthOf env cond s = .ok (c.truth s₀) s₀ := Run.bind_ok _ hc
  rw [evalConditional, Run.bind_ok _ htruth, Run.bind_ok _ hv, Ty.castNoting, hw]
  rfl

theorem evalTry_ok (hv : m.eval env e s = .ok v s₁) (hw : t.cast v = .ok w) :
    m.evalTry env e binding f t s = .ok w s₁ := by
  rw [evalTry, Run.bind_ok _ (Run.outcome_ok hv)]
  show Run.ofExcept (t.cast v) s₁ = _
  rw [hw]
  rfl

theorem evalTry_handled {err : EvalError} (he : m.eval env f s = .error (.error err) s₀)
    (hr : err.returned? = none) (hv : m.handle env binding e err s₀ = .ok v s₁)
    (hw : t.cast v = .ok w) : m.evalTry env f binding e t s = .ok w s₁ := by
  rw [evalTry, Run.bind_ok _ (Run.outcome_error he)]
  simp only [hr]
  rw [Run.bind_ok _ hv, hw]
  rfl

end Machine

/-- Values of two types convert to the join of the types, unless they are arrays and the join makes `void` of
a part of their elements. So a conditional, a handled body and its handler yield a value once the branch
that is taken has yielded one of its static type, whichever of the two types that is. -/
theorem union_accepts_iff (a b : Ty) :
    ((∀ v, a.Conforms v → (∃ w, (a.union b).cast v = .ok w) ∧ ∃ w, (b.union a).cast v = .ok w) ↔
      b.voidsElements a = false) ∧
    (b.voidsElements a = false → ∀ v, a.Conforms v →
      ∀ (m : Machine) (env : Env) (e f : Expr), e.type = a → f.type = b → ∀ s s₁,
        (∀ cond c s₀, m.eval env cond s = .ok c s₀ → m.eval env e s₀ = .ok v s₁ →
          (c.truth s₀ = true → ∃ w, m.evalNode env (.conditional cond e f) s = .ok w s₁) ∧
          (c.truth s₀ = false → ∃ w, m.evalNode env (.conditional cond f e) s = .ok w s₁)) ∧
        (m.eval env e s = .ok v s₁ →
          ∀ binding, ∃ w, m.evalNode env (.tryCatch e binding f) s = .ok w s₁) ∧
        (∀ binding err s₀, m.eval env f s = .error (.error err) s₀ → err.returned? = none →
          m.handle env binding e err s₀ = .ok v s₁ →
          ∃ w, m.evalNode env (.tryCatch f binding e) s = .ok w s₁)) := by
  have both (h : b.voidsElements a = false) (v : Value) (hv : a.Conforms v) :
      (∃ w, (a.union b).cast v = .ok w) ∧ ∃ w, (b.union a).cast v = .ok w := by
    rw [Ty.union_comm b a]
    exact ⟨Ty.cast_union hv h, Ty.cast_union hv h⟩
  refine ⟨⟨fun h => ?_, both⟩, fun h v hv m env e f he hf s s₁ => ?_⟩
  · cases hb : b.voidsElements a with
    | false => rfl
    | true =>
      obtain ⟨v, hv, hno⟩ := Ty.cast_union_fails hb
      exact absurd (h v hv).1 hno
  · obtain ⟨⟨w, hw⟩, w', hw'⟩ := both h v hv
    subst he hf
    refine ⟨fun cond c s₀ hc hev => ⟨fun htrue => ⟨w, ?_⟩, fun hfalse => ⟨w', ?_⟩⟩,
      fun hev binding => ⟨w, Machine.evalTry_ok hev hw⟩,
      fun binding err s₀ hfail hr hev => ⟨w', Machine.evalTry_handled hfail hr hev hw'⟩⟩
    · exact Machine.evalConditional_ok hc (by rwa [if_pos htrue]) hw
    · have hnot : ¬c.truth s₀ = true := Bool.eq_false_iff.mp hfalse
      exact Machine.evalConditional_ok hc (by rwa [if_neg hnot]) hw'

namespace Sample

def ones : Expr := .arrayLiteral .int [.literal (.int 1) .int]

def onesOr (e : Expr) : Expr := .conditional (.literal (.bool true) .bool) ones e

end Sample

open Sample in
/-- An array of integers is an array of floating-point numbers, so a conditional between the two yields it. -/
theorem union_accepts_iff_arrays :
    (Ty.array .double).voidsElements (.array .int) = false ∧ (Ty.array .int).Conforms (.array .int 0) ∧
      ∃ w s, (Machine.ofFuel (standardHost 0) 9).evalNode [] (onesOr (.arrayLiteral .double [])) {} =
        .ok w s := by
  have hv : (Ty.array .int).Conforms (.array .int 0) := rfl
  obtain ⟨s, hs⟩ : ∃ s, (Machine.ofFuel (standardHost 0) 9).eval [] ones {} =
      .ok (.array .int 0) s := ⟨_, rfl⟩
  have h := (union_accepts_iff (.array .int) (.array .double)).2 rfl _ hv
    (.ofFuel (standardHost 0) 9) [] ones (.arrayLiteral .double []) rfl rfl {} s
  obtain ⟨w, hw⟩ := (h.1 (.literal (.bool true) .bool) (.bool true) {} rfl hs).1 rfl
  exact ⟨rfl, hv, w, s, hw⟩

open Sample in
/-- An array of integers is no array of `void`, which the join with such arrays is the type of. -/
theorem union_refuses_array :
    (Ty.array .int).Conforms (.array .int 0) ∧
      (¬∃ w, ((Ty.array .int).union (.array .void)).cast (.array .int 0) = .ok w) ∧
      ∃ notes s, (Machine.ofFuel (standardHost 0) 9).evalNode []
        (onesOr (.cast (.array .void) (.literal .null .any))) {} =
          .error (.error ⟨.typeMismatch "void[]" "int[]", notes⟩) s := by
  refine ⟨rfl, ?_, _, _, rfl⟩
  rintro ⟨w, hw⟩
  cases hw

end ExprCore
