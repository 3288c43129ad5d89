import ExprCore.Operator.Invoke
import ExprCore.Proofs.Integers

/-!
Arithmetic on integers is exact. A result that the wider type of the operands holds is the result of exact
arithmetic, with quotients cut toward zero; every other computation fails, for a division by zero or an
overflow. One remainder is refused although its type holds it: that of the least integer by minus one,
whose quotient is too large.
-/

namespace ExprCore
set_option autoImplicit false

def integerType (args : List Value) : Ty := if .long ∈ args.map Value.ty then .long else .int

theorem integerType_eq (args : List Value) : integerType args = .int ∨ integerType args = .long := by
  unfold integerType
  split
  · exact .inr rfl
  · exact .inl rfl

theorem holds_of_integral? {args : List Value} {v : Value} (hv : v ∈ args) {n : Int}
    (h : v.integral? = some n) : (integerType args).Holds n := by
  have hint (h : Ty.int.Holds n) : (integerType args).Holds n := by
    rcases integerType_eq args with ht | ht <;> rw [ht]
    · exact h
    · exact Ty.holds_long_of_int h
  cases v with
  | char c => cases h; exact hint (Ty.holds_toNat c)
  | int k => cases h; exact hint (Ty.holds_toInt32 k)
  | long k =>
    cases h
    have hm : Ty.long ∈ args.map Value.ty := List.mem_map_of_mem hv
    rw [integerType, if_pos hm]
    exact Ty.holds_toInt64 k
  | _ => cases h

theorem Run.ofExcept_error_iff {α : Type} {r : Except EvalError α} {e : EvalError} {s : Store} :
    Run.ofExcept r s = .error (.error e) s ↔ r = .error e := by
  cases r with
  | ok => exact iff_of_false nofun nofun
  | error e' =>
    constructor <;> intro h <;> cases h <;> rfl

namespace Arith

variable {op : Arith} {t : Ty} {m n : Int}

/-- The result of an operation in exact arithmetic, a quotient cut toward zero. -/
def result (op : Arith) (m n : Int) : Int :=
  match op with
  | .add => m + n
  | .sub => m - n
  | .mul => m * n
  | .div => m.tdiv n
  | .rem => m.tmod n

abbrev DividesByZero (op : Arith) (n : Int) : Prop := n = 0 ∧ (op = .div ∨ op = .rem)

/-- The remainder of the least integer of a type by minus one. -/
abbrev LeastRemainder (op : Arith) (t : Ty) (m n : Int) : Prop := op = .rem ∧ m = t.least ∧ n = -1

theorem holds_tdiv_iff (hm : t.Holds m) (hn : n ≠ 0) :
    t.Holds (m.tdiv n) ↔ ¬(m = t.least ∧ n = -1) := by
  constructor
  · rintro h ⟨rfl, rfl⟩
    rw [Int.tdiv_neg, Int.tdiv_one] at h
    exact Int.lt_irrefl _ h.2
  · intro h
    unfold Ty.Holds at hm ⊢
    by_cases hone : n.natAbs = 1
    · have hn1 : n = 1 ∨ n = -1 := by omega
      rcases hn1 with rfl | rfl
      · rwa [Int.tdiv_one]
      · rw [Int.tdiv_neg, Int.tdiv_one]
        omega
    · -- a larger divisor at least halves the absolute value
      have hq : (m.tdiv n).natAbs ≤ m.natAbs / 2 := by
        rw [Int.natAbs_tdiv]
        exact Nat.div_le_div_left (by omega) (by decide)
      omega

theorem holds_tmod (hn : t.Holds n) (h0 : n ≠ 0) : t.Holds (m.tmod n) := by
  have hr : (m.tmod n).natAbs < n.natAbs := by
    rw [Int.natAbs_tmod]
    exact Nat.mod_lt _ (Int.natAbs_pos.mpr h0)
  unfold Ty.Holds at hn ⊢
  omega

theorem onIntegers_zero (make? : Int → Option Value) (m : Int) (h : op.DividesByZero n) :
    op.onIntegers make? m n = .error (.of .divisionByZero) := if_pos h

/-- The machine result is the exact one, and fits if the type holds it, the remainder apart whose quotient
does not fit. -/
theorem exact_eq (hm : t.Holds m) (hn : t.Holds n) (hzero : ¬op.DividesByZero n) :
    op.exact (fun k => (Value.ofInteger? t k).isSome) m n =
      (op.result m n, decide (t.Holds (op.result m n) ∧ ¬op.LeastRemainder t m n)) := by
  simp only [Value.isSome_ofInteger?]
  cases op with
  | add | sub | mul | div => simp [exact, result, LeastRemainder]
  | rem =>
    have h0 : n ≠ 0 := fun h => hzero ⟨h, .inr rfl⟩
    simp [exact, result, LeastRemainder, holds_tdiv_iff hm h0, holds_tmod hn h0]

theorem onIntegers_ok (hm : t.Holds m) (hn : t.Holds n) (hzero : ¬op.DividesByZero n)
    (hr : t.Holds (op.result m n)) (hc : ¬op.LeastRemainder t m n) :
    ∃ v, op.onIntegers (Value.ofInteger? t) m n = .ok v ∧ v.ty = t ∧
      v.integral? = some (op.result m n) := by
  obtain ⟨v, hv, hty, hk⟩ := Value.exists_ofInteger? hr
  refine ⟨v, ?_, hty, hk⟩
  rw [onIntegers, if_neg hzero, exact_eq hm hn hzero]
  simp only [hr, hc, hv, not_false_eq_true, and_self, decide_true, if_true]

theorem onIntegers_overflow (hm : t.Holds m) (hn : t.Holds n) (hzero : ¬op.DividesByZero n)
    (h : ¬(t.Holds (op.result m n) ∧ ¬op.LeastRemainder t m n)) :
    op.onIntegers (Value.ofInteger? t) m n = .error (.overflow op.describe) := by
  rw [onIntegers, if_neg hzero, exact_eq hm hn hzero]
  simp only [h, decide_false, Bool.false_eq_true, if_false]

theorem onIntegers_zero_iff (hm : t.Holds m) (hn : t.Holds n) :
    op.onIntegers (Value.ofInteger? t) m n = .error (.of .divisionByZero) ↔ op.DividesByZero n := by
  refine ⟨fun h => Decidable.byContradiction fun hzero => ?_, onIntegers_zero _ m⟩
  -- without a division by zero there is a result or an overflow
  by_cases hfits : t.Holds (op.result m n) ∧ ¬op.LeastRemainder t m n
  · obtain ⟨v, hv, -⟩ := onIntegers_ok hm hn hzero hfits.1 hfits.2
    rw [hv] at h
    cases h
  · rw [onIntegers_overflow hm hn hzero hfits] at h
    cases h

theorem onIntegers_overflow_iff (hm : t.Holds m) (hn : t.Holds n) :
    op.onIntegers (Value.ofInteger? t) m n = .error (.overflow op.describe) ↔
      ¬op.DividesByZero n ∧ (¬t.Holds (op.result m n) ∨ op.LeastRemainder t m n) := by
  by_cases hzero : op.DividesByZero n
  · rw [onIntegers_zero _ m hzero]
    exact iff_of_false nofun fun h => h.1 hzero
  · have hover : ¬t.Holds (op.result m n) ∨ op.LeastRemainder t m n ↔
        ¬(t.Holds (op.result m n) ∧ ¬op.LeastRemainder t m n) := by
      rw [Decidable.not_and_iff_not_or_not, Decidable.not_not]
    rw [hover]
    refine ⟨fun h => ⟨hzero, fun hfits => ?_⟩, fun h => onIntegers_overflow hm hn hzero h.2⟩
    obtain ⟨v, hv, -⟩ := onIntegers_ok hm hn hzero hfits.1 hfits.2
    rw [hv] at h
    cases h

variable {a b : Value}

theorem invoke_integers (op : Arith) (fuel : Nat) (s : Store) (ha : a.integral? = some m)
    (hb : b.integral? = some n) : op.invoke fuel a b s =
      Run.ofExcept (op.onIntegers (Value.ofInteger? (integerType [a, b])) m n) s := by
  have htext : ¬(op = .add ∧ (isText a = true ∨ isText b = true)) := by
    rintro ⟨-, h | h⟩
    · cases a <;> cases ha <;> cases h
    · cases b <;> cases hb <;> cases h
  rw [invoke, if_neg htext]
  cases a <;> cases ha <;> cases b <;> cases hb <;> rfl

end Arith

namespace Operator

variable {a b : Value} {m n : Int}

theorem negateValue_eq (ha : a.integral? = some m) :
    negateValue a =
      match Value.ofInteger? (integerType [a]) (-m) with
      | some w => .ok w
      | none => .error (.overflow "negation") := by
  cases a <;> cases ha <;> rfl

theorem negateValue_ok (ha : a.integral? = some m) (h : (integerType [a]).Holds (-m)) :
    ∃ v, negateValue a = .ok v ∧ v.ty = integerType [a] ∧ v.integral? = some (-m) := by
  obtain ⟨v, hv, hty, hk⟩ := Value.exists_ofInteger? h
  exact ⟨v, by rw [negateValue_eq ha, hv], hty, hk⟩

theorem negateValue_overflow_iff (ha : a.integral? = some m) :
    negateValue a = .error (.overflow "negation") ↔ ¬(integerType [a]).Holds (-m) := by
  constructor
  · intro h hfits
    obtain ⟨v, hv, -⟩ := negateValue_ok ha hfits
    rw [hv] at h
    cases h
  · intro h
    rw [negateValue_eq ha, Value.ofInteger?_eq_none h]

/-- Arithmetic on integers and characters is exact or fails: for a division by zero, or for a result that
the type of the operands does not hold. The one exception is a remainder, of the least integer by minus
one. -/
theorem integers_exact (ha : a.integral? = some m) (hb : b.integral? = some n) (op : Arith) (fuel : Nat)
    (s : Store) :
    let t := integerType [a, b]
    let computed := invoke (.arith op) fuel [a, b] s
    let negated := invoke .negate fuel [a] s
    (¬op.DividesByZero n → t.Holds (op.result m n) → ¬op.LeastRemainder t m n →
      ∃ v, computed = .ok v s ∧ v.ty = t ∧ v.integral? = some (op.result m n)) ∧
    (computed = .error (.error (.of .divisionByZero)) s ↔ op.DividesByZero n) ∧
    (computed = .error (.error (.overflow op.describe)) s ↔
      ¬op.DividesByZero n ∧ (¬t.Holds (op.result m n) ∨ op.LeastRemainder t m n)) ∧
    ((integerType [a]).Holds (-m) →
      ∃ v, negated = .ok v s ∧ v.ty = integerType [a] ∧ v.integral? = some (-m)) ∧
    (negated = .error (.error (.overflow "negation")) s ↔ ¬(integerType [a]).Holds (-m)) := by
  intro t computed negated
  have hcomputed : computed = Run.ofExcept (op.onIntegers (Value.ofInteger? t) m n) s :=
    Arith.invoke_integers op fuel s ha hb
  have hnegated : negated = Run.ofExcept (negateValue a) s := rfl
  have hm : t.Holds m := holds_of_integral? (by simp) ha
  have hn : t.Holds n := holds_of_integral? (by simp) hb
  rw [hcomputed, hnegated]
  refine ⟨fun hzero hr hc => ?_, ?_, ?_, fun hr => ?_, ?_⟩
  · obtain ⟨v, hv, hty, hk⟩ := Arith.onIntegers_ok hm hn hzero hr hc
    exact ⟨v, by rw [hv]; rfl, hty, hk⟩
  · rw [Run.ofExcept_error_iff, Arith.onIntegers_zero_iff hm hn]
  · rw [Run.ofExcept_error_iff, Arith.onIntegers_overflow_iff hm hn]
  · obtain ⟨v, hv, hty, hk⟩ := negateValue_ok ha hr
    exact ⟨v, by rw [hv]; rfl, hty, hk⟩
  · rw [Run.ofExcept_error_iff, negateValue_overflow_iff ha]

/-- A remainder has the sign of the dividend, and the wider type of the two. -/
theorem integers_exact_mixed :
    (Value.long (-7)).integral? = some (-7) ∧ (Value.char '\x02').integral? = some 2 ∧
      ∃ v, invoke (.arith .rem) 0 [.long (-7), .char '\x02'] {} = .ok v {} ∧ v.ty = .long ∧
        v.integral? = some (-1) := by
  have ha : (Value.long (-7)).integral? = some (-7) := by decide
  have hb : (Value.char '\x02').integral? = some 2 := by decide
  obtain ⟨v, hv, hty, hk⟩ := (integers_exact ha hb .rem 0 {}).1 (by decide) (by decide) (by decide)
  exact ⟨ha, hb, v, hv, hty, hk⟩

theorem least_remainder_overflows :
    (Value.int (-2147483648)).integral? = some (-2147483648) ∧
      (Value.int (-1)).integral? = some (-1) ∧ Int.tmod (-2147483648) (-1) = 0 ∧ Ty.int.Holds 0 ∧
      invoke (.arith .rem) 0 [.int (-2147483648), .int (-1)] {} =
        .error (.error (.overflow "remainder")) {} := by
  refine ⟨by decide, by decide, by decide, by decide, ?_⟩
  rfl

end Operator

end ExprCore
