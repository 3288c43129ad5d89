import ExprCore.Proofs.Likeness.Constants

/-!
The static types of operators. Values that conform to the types of the operands decide what an operator
does: a numeric type has only values of just that type, and a type that is neither numeric nor `any` has
no numbers at all. So the result conforms to the type that was inferred, and operands of types that were
rejected are rejected again.
-/

namespace ExprCore
set_option autoImplicit false

variable {t a b : Ty} {v w : Value} {fuel : Nat} {s s₁ : Store}

namespace Ty

theorem castIntegral_eq_ok {make? : Int → Option Value} (h : castIntegral t make? v = .ok w) :
    ∃ n, make? n = some w := by
  unfold castIntegral at h
  split at h
  · cases h
  · rename_i n _
    split at h
    · cases h
    · rename_i u hu
      cases h
      exact ⟨n, hu⟩

theorem Conforms.ty_eq (h : t.Conforms v) (ht : t.isNumeric = true) : v.ty = t := by
  cases t with
  | char =>
    obtain ⟨n, hn⟩ := castIntegral_eq_ok h
    unfold Value.char? at hn
    split at hn <;> cases hn
    rfl
  | int =>
    obtain ⟨n, hn⟩ := castIntegral_eq_ok h
    unfold Value.int? at hn
    split at hn <;> cases hn
    rfl
  | long =>
    obtain ⟨n, hn⟩ := castIntegral_eq_ok h
    unfold Value.long? at hn
    split at hn <;> cases hn
    rfl
  | double =>
    have hd : castDouble v = .ok v := h
    unfold castDouble at hd
    split at hd
    · rfl
    · split at hd <;> cases hd
      rfl
  | _ => cases ht

theorem Conforms.isNumeric_ty (h : t.Conforms v) (ha : t ≠ .any) :
    v.ty.isNumeric = t.isNumeric := by
  cases ht : t.isNumeric with
  | true => rw [h.ty_eq ht, ht]
  | false =>
    cases t with
    | any => exact absurd rfl ha
    | char | int | long | double => cases ht
    | _ => cases v <;> first | rfl | cases h

theorem Conforms.of_str {x : String} (h : t.Conforms (.str x)) : t = .str ∨ t = .any := by
  cases t <;> first | exact .inl rfl | exact .inr rfl | cases h

theorem Conforms.of_bool {p : Bool} (h : t.Conforms (.bool p)) : t = .bool ∨ t = .any := by
  cases t <;> first | exact .inl rfl | exact .inr rfl | cases h

end Ty

namespace Num

def ty : Num → Ty
  | .int _ => .int
  | .long _ => .long
  | .double _ => .double

theorem isSome_of? (v : Value) : (of? v).isSome = v.ty.isNumeric := by
  cases v <;> rfl

theorem of?_eq_none (h : t.Conforms v) (ha : t ≠ .any) (ht : t.isNumeric = false) :
    of? v = none := by
  rw [← Option.not_isSome_iff_eq_none, isSome_of?, h.isNumeric_ty ha, ht]
  exact Bool.false_ne_true

end Num

namespace Arith

theorem onIntegers_eq_ok {op : Arith} {make? : Int → Option Value} {m n : Int}
    (h : op.onIntegers make? m n = .ok v) : ∃ k, make? k = some v := by
  unfold onIntegers at h
  split at h
  · cases h
  · generalize op.exact _ m n = r at h
    obtain ⟨k, fits⟩ := r
    dsimp only at h
    split at h
    · rename_i u hu
      cases h
      split at hu
      · exact ⟨k, hu⟩
      · cases hu
    · cases h

theorem conforms_int? {k : Int} (h : Value.int? k = some v) : Ty.int.Conforms v := by
  show Ty.castIntegral .int Value.int? v = .ok v
  simp only [Ty.castIntegral, Value.truncated?_of_int? h, h]

theorem conforms_long? {k : Int} (h : Value.long? k = some v) : Ty.long.Conforms v := by
  show Ty.castIntegral .long Value.long? v = .ok v
  simp only [Ty.castIntegral, Value.truncated?_of_long? h, h]

theorem conforms_onNumbers {op : Arith} {m n : Num} (h : op.onNumbers m n = .ok v) :
    (m.ty.union n.ty).Conforms v := by
  have hint {i j : Int} (h : op.onIntegers Value.int? i j = .ok v) : Ty.int.Conforms v :=
    (onIntegers_eq_ok h).elim fun _ => conforms_int?
  have hlong {i j : Int} (h : op.onIntegers Value.long? i j = .ok v) : Ty.long.Conforms v :=
    (onIntegers_eq_ok h).elim fun _ => conforms_long?
  cases m with
  | int i =>
    cases n with
    | int j => exact hint h
    | long j => exact hlong h
    | double y => cases h; rfl
  | long i =>
    cases n with
    | int j => exact hlong h
    | long j => exact hlong h
    | double y => cases h; rfl
  | double x => cases n <;> cases h <;> rfl

theorem infer_numbers (op : Arith) {m n : Num} {u : Value} (hv : Num.of? v = some m)
    (hu : Num.of? u = some n) : Operator.inferArith op v.ty u.ty = .ok (m.ty.union n.ty) := by
  cases v <;> cases hv <;> cases u <;> cases hu <;> simp [Operator.inferArith, Value.ty, Num.ty,
    Ty.isNumeric, Ty.rank?, Ty.union]

variable {op : Arith} {r : Value}

theorem isText_of_numeric (h : v.ty.isNumeric = true) : isText v = false := by
  cases v <;> first | rfl | cases h

theorem eq_str_of_isText (hv : t.Conforms v) (ht : t ≠ .any) (hx : isText v = true) : t = .str := by
  cases v with
  | str x => exact hv.of_str.resolve_right ht
  | _ => cases hx

theorem invoke_eq_ok (h : op.invoke fuel v w s = .ok r s₁) :
    (∃ x, r = .str x ∧ (isText v = true ∨ isText w = true)) ∨
      ∃ m n, Num.of? v = some m ∧ Num.of? w = some n ∧ op.onNumbers m n = .ok r := by
  unfold invoke at h
  split at h
  · rename_i hc
    obtain ⟨s', s₂, -, h⟩ := Run.ok_of_bind h
    obtain ⟨left, s₃, -, h⟩ := Run.ok_of_bind h
    obtain ⟨right, s₄, -, h⟩ := Run.ok_of_bind h
    cases h
    exact .inl ⟨_, rfl, hc.2⟩
  · generalize Num.of? v = x, Num.of? w = y at h
    cases x with
    | none => cases h
    | some m =>
      cases y with
      | none => cases h
      | some n => exact .inr ⟨m, n, rfl, rfl, Run.ok_of_ofExcept h⟩

theorem conforms_invoke (hv : a.Conforms v) (hw : b.Conforms w)
    (hi : Operator.inferArith op a b = .ok t) (h : op.invoke fuel v w s = .ok r s₁) :
    t.Conforms r := by
  unfold Operator.inferArith at hi
  split at hi
  · rename_i hc
    cases hi
    rcases invoke_eq_ok h with ⟨x, rfl, -⟩ | ⟨m, n, hm, hn, -⟩
    · rfl
    · -- a string is no number, and neither is null
      exfalso
      rcases hc.2 with rfl | rfl
      · rw [Num.of?_eq_none hv (by nofun) rfl] at hm
        cases hm
      · rw [Num.of?_eq_none hw (by nofun) rfl] at hn
        cases hn
  · split at hi
    · cases hi
      exact Ty.conforms_any r
    · split at hi
      · rename_i hn ha hnum
        rw [Bool.and_eq_true] at hnum
        have hva := hv.ty_eq hnum.1
        have hwb := hw.ty_eq hnum.2
        rcases invoke_eq_ok h with ⟨x, -, hx | hx⟩ | ⟨m, n, hm, hn', hr⟩
        · rw [isText_of_numeric (hva ▸ hnum.1)] at hx
          cases hx
        · rw [isText_of_numeric (hwb ▸ hnum.2)] at hx
          cases hx
        · have ht := infer_numbers op hm hn'
          rw [hva, hwb, Operator.inferArith, if_neg hn, if_neg ha,
            if_pos (Bool.and_eq_true _ _ ▸ hnum), hi] at ht
          cases ht
          exact conforms_onNumbers hr
      · cases hi

theorem invoke_fails (hv : a.Conforms v) (hw : b.Conforms w) {e : EvalError}
    (hi : Operator.inferArith op a b = .error e) :
    ∃ e', op.invoke fuel v w s = .error (.error e') s := by
  unfold Operator.inferArith at hi
  split at hi
  · cases hi
  · rename_i hc
    split at hi
    · cases hi
    · rename_i hany
      rw [not_or] at hany
      split at hi
      · split at hi <;> cases hi
      · rename_i hnum
        have htext : ¬(op = .add ∧ (isText v = true ∨ isText w = true)) := by
          rintro ⟨ho, hx | hx⟩
          · exact hc ⟨ho, .inl (eq_str_of_isText hv hany.1 hx)⟩
          · exact hc ⟨ho, .inr (eq_str_of_isText hw hany.2 hx)⟩
        have hnone : Num.of? v = none ∨ Num.of? w = none := by
          cases ha : a.isNumeric with
          | false => exact .inl (Num.of?_eq_none hv hany.1 ha)
          | true =>
            cases hb : b.isNumeric with
            | false => exact .inr (Num.of?_eq_none hw hany.2 hb)
            | true => exact absurd (by rw [ha, hb]; rfl) hnum
        unfold invoke
        rw [if_neg htext]
        rcases hnone with hnone | hnone
        · rw [hnone]
          exact ⟨_, rfl⟩
        · rw [hnone]
          cases Num.of? v <;> exact ⟨_, rfl⟩

end Arith

namespace Comparison

variable {op : Comparison} {r : Value}

theorem conforms_invoke (h : op.invoke fuel v w s = .ok r s₁) : Ty.bool.Conforms r := by
  unfold invoke at h
  cases ho : order? v w with
  | some order =>
    rw [ho] at h
    cases h
    rfl
  | none =>
    rw [ho] at h
    cases heq : op.isEquality with
    | true =>
      simp only [heq, if_true] at h
      obtain ⟨s', s₂, -, h⟩ := Run.ok_of_bind h
      obtain ⟨same, s₃, -, h⟩ := Run.ok_of_bind h
      cases h
      rfl
    | false =>
      simp only [heq] at h
      cases h

/-- Values that have an order are two numbers, two strings or two truth values. -/
theorem order?_cases {o : Option Ordering} (h : order? v w = some o) :
    (∃ m n, Num.of? v = some m ∧ Num.of? w = some n) ∨ (∃ x y, v = .str x ∧ w = .str y) ∨
      ∃ p q, v = .bool p ∧ w = .bool q := by
  unfold order? at h
  split at h
  · rename_i m n hm hn
    exact .inl ⟨m, n, hm, hn⟩
  · split at h
    · exact .inr (.inl ⟨_, _, rfl, rfl⟩)
    · exact .inr (.inr ⟨_, _, rfl, rfl⟩)
    · cases h

theorem invoke_fails (hv : a.Conforms v) (hw : b.Conforms w) {e : EvalError}
    (hi : Operator.inferCompare op a b = .error e) :
    ∃ e', op.invoke fuel v w s = .error (.error e') s := by
  unfold Operator.inferCompare at hi
  split at hi
  · cases hi
  · rename_i hc
    simp only [Bool.or_eq_true, Bool.and_eq_true, decide_eq_true_eq, not_or, not_and] at hc
    obtain ⟨⟨⟨⟨heq, ha⟩, hb⟩, hnum⟩, hsame⟩ := hc
    have horder : order? v w = none := by
      cases ho : order? v w with
      | none => rfl
      | some o =>
        exfalso
        rcases order?_cases ho with ⟨m, n, hm, hn⟩ | ⟨x, y, rfl, rfl⟩ | ⟨p, q, rfl, rfl⟩
        · have hva := hv.isNumeric_ty ha
          have hwb := hw.isNumeric_ty hb
          rw [← Num.isSome_of?, hm] at hva
          rw [← Num.isSome_of?, hn] at hwb
          exact hnum hva.symm hwb.symm
        · have hx := hv.of_str.resolve_right ha
          have hy := hw.of_str.resolve_right hb
          exact (hsame (hx.trans hy.symm)).1 hx
        · have hp := hv.of_bool.resolve_right ha
          have hq := hw.of_bool.resolve_right hb
          exact (hsame (hp.trans hq.symm)).2 hp
    unfold invoke
    simp only [horder, heq]
    exact ⟨_, rfl⟩

end Comparison

namespace Operator

variable {r : Value} {e : EvalError}

theorem conforms_negateValue (hv : a.Conforms v) (hi : inferNegate a = .ok t)
    (h : negateValue v = .ok r) : t.Conforms r := by
  by_cases ha : a = .any
  · subst ha
    cases hi
    exact Ty.conforms_any r
  have hnum : a.isNumeric = true := by
    cases a <;> first | rfl | exact absurd rfl ha | cases hi
  have hty := hv.ty_eq hnum
  unfold negateValue at h
  dsimp only at h
  cases v with
  | char c | int n =>
    subst hty
    cases hi
    simp only [Num.of?] at h
    split at h
    · cases h
      exact Arith.conforms_int? ‹_›
    · cases h
  | long n =>
    subst hty
    cases hi
    simp only [Num.of?] at h
    split at h
    · cases h
      exact Arith.conforms_long? ‹_›
    · cases h
  | double x => subst hty; cases hi; cases h; rfl
  | _ => cases h

theorem negateValue_fails (hv : a.Conforms v) (hi : inferNegate a = .error e) :
    ∃ e', negateValue v = .error e' := by
  have ha : a ≠ .any := by rintro rfl; cases hi
  have hnum : a.isNumeric = false := by
    cases a <;> first | rfl | cases hi
  unfold negateValue
  rw [Num.of?_eq_none hv ha hnum]
  exact ⟨_, rfl⟩

theorem items_newList {items : List Value} (h : Run.newList items s = .ok r s₁) :
    ∃ ref, r = .list ref ∧ s₁.items ref = items := by
  cases h
  exact ⟨s.sequences.size, rfl, s.items_push_self items⟩

theorem conforms_walkDoubles {last step : Float} {n : Nat} {walked items : List Value} {x : Float}
    (hw : ∀ w ∈ walked, Ty.double.Conforms w)
    (h : walkDoubles last step n walked x s = .ok items s₁) : ∀ w ∈ items, Ty.double.Conforms w := by
  induction n generalizing walked x with
  | zero => cases h
  | succ n ih =>
    rw [walkDoubles] at h
    split at h
    · simp only at h
      split at h
      · cases h
      · refine ih (fun w hm => ?_) h
        rcases List.mem_cons.mp hm with rfl | hm
        · rfl
        · exact hw w hm
    · cases h
      exact fun w hm => hw w (List.mem_reverse.mp hm)

theorem conforms_doubleRange {first last : Float} {step : Option Float}
    (h : doubleRange fuel first last step s = .ok r s₁) :
    ∃ ref, r = .list ref ∧ ∀ item ∈ s₁.items ref, Ty.double.Conforms item := by
  unfold doubleRange at h
  generalize step.getD _ = k at h
  split at h
  · cases h
  · split at h
    · cases h
    · obtain ⟨items, s₂, hi, h⟩ := Run.ok_of_bind h
      obtain ⟨ref, hr, hs⟩ := items_newList h
      exact ⟨ref, hr, hs ▸ conforms_walkDoubles (fun _ hm => absurd hm List.not_mem_nil) hi⟩

theorem conforms_integralRange {elem : Ty} {first last : Int} {step : Option Int}
    (h : integralRange elem first last step s = .ok r s₁) :
    ∃ ref, r = .list ref ∧ ∀ item ∈ s₁.items ref, elem.Conforms item := by
  unfold integralRange at h
  generalize step.getD _ = k at h
  split at h
  · cases h
  · obtain ⟨items, s₂, hi, h⟩ := Run.ok_of_bind h
    obtain ⟨ref, hr, hs⟩ := items_newList h
    exact ⟨ref, hr, hs ▸ (Ty.conforms_of_mapM (Run.ok_of_ofExcept hi)).2⟩

theorem conforms_rangeOver {args : List Value} (h : rangeOver fuel args s = .ok r s₁) :
    ∃ elem ref, rangeElement (args.map Value.ty) = .ok elem ∧ r = .list ref ∧
      ∀ item ∈ s₁.items ref, elem.Conforms item := by
  unfold rangeOver at h
  obtain ⟨elem, s₂, he, h⟩ := Run.ok_of_bind h
  refine ⟨elem, ?_⟩
  dsimp only at h
  generalize args.filterMap Num.of? = nums at h
  rcases nums with _ | ⟨first, _ | ⟨last, step⟩⟩
  · cases h
  · cases h
  · dsimp only at h
    split at h
    · rename_i hd
      obtain ⟨ref, hr, hi⟩ := conforms_doubleRange h
      exact ⟨ref, Run.ok_of_ofExcept he, hr, hd ▸ hi⟩
    · generalize integer? first = i, integer? last = j at h
      cases i with
      | none => cases h
      | some i =>
        cases j with
        | none => cases h
        | some j =>
          obtain ⟨ref, hr, hi⟩ := conforms_integralRange h
          exact ⟨ref, Run.ok_of_ofExcept he, hr, hi⟩

variable {types : List Ty} {args : List Value}

theorem rangeElement_any (h : .any ∈ types) : rangeElement types = .ok .any := if_pos h

theorem rangeElement_fails (ha : .any ∉ types) (h : ∃ t ∈ types, t.isNumeric = false) :
    ∃ e, rangeElement types = .error e := by
  unfold rangeElement
  rw [if_neg ha]
  cases hf : types.find? (!·.isNumeric) with
  | some bad => exact ⟨_, rfl⟩
  | none =>
    obtain ⟨t, hm, ht⟩ := h
    have hn := List.find?_eq_none.mp hf t hm
    rw [ht] at hn
    exact absurd rfl hn

/-- A range is rejected on account of an operand that is no number. -/
theorem of_rangeElement_error (h : rangeElement types = .error e) :
    .any ∉ types ∧ ∃ t ∈ types, t.isNumeric = false := by
  unfold rangeElement at h
  split at h
  · cases h
  · rename_i ha
    refine ⟨ha, ?_⟩
    cases hf : types.find? (!·.isNumeric) with
    | some bad =>
      have hb := List.find?_some hf
      exact ⟨bad, List.mem_of_find?_eq_some hf, by simpa using hb⟩
    | none =>
      rw [hf] at h
      dsimp only at h
      split at h
      · cases h
      · split at h
        · cases h
        · split at h <;> cases h

theorem any_notMem_tys (args : List Value) : Ty.any ∉ args.map Value.ty := by
  intro h
  obtain ⟨v, -, hv⟩ := List.mem_map.mp h
  cases v <;> cases hv

theorem tys_eq (h : List.Forall₂ Ty.Conforms types args) (ht : ∀ t ∈ types, t.isNumeric = true) :
    args.map Value.ty = types := by
  induction h with
  | nil => rfl
  | cons h _ ih =>
    rw [List.map_cons, h.ty_eq (ht _ List.mem_cons_self),
      ih fun t hm => ht t (List.mem_cons_of_mem _ hm)]

theorem conforms_range {elem : Ty} (hv : List.Forall₂ Ty.Conforms types args)
    (hi : rangeElement types = .ok elem) (h : rangeOver fuel args s = .ok r s₁) :
    ∃ ref, r = .list ref ∧ ∀ item ∈ s₁.items ref, elem.Conforms item := by
  obtain ⟨found, ref, hf, hr, hitems⟩ := conforms_rangeOver h
  refine ⟨ref, hr, ?_⟩
  by_cases ha : Ty.any ∈ types
  · rw [rangeElement_any ha] at hi
    cases hi
    exact fun item _ => Ty.conforms_any item
  · have hn : ∀ t ∈ types, t.isNumeric = true := by
      intro t hm
      by_contra hne
      obtain ⟨e, he⟩ := rangeElement_fails ha ⟨t, hm, Bool.eq_false_iff.mpr hne⟩
      rw [he] at hi
      cases hi
    rw [tys_eq hv hn, hi] at hf
    cases hf
    exact hitems

theorem exists_ty_not_numeric (hv : List.Forall₂ Ty.Conforms types args) (ha : Ty.any ∉ types)
    (h : ∃ t ∈ types, t.isNumeric = false) : ∃ t ∈ args.map Value.ty, t.isNumeric = false := by
  induction hv with
  | nil => exact absurd h nofun
  | cons hv hvs ih =>
    rw [List.mem_cons, not_or] at ha
    obtain ⟨t, hm, ht⟩ := h
    rcases List.mem_cons.mp hm with rfl | hm
    · exact ⟨_, List.mem_cons_self, (hv.isNumeric_ty (Ne.symm ha.1)).trans ht⟩
    · obtain ⟨u, hu, hun⟩ := ih ha.2 ⟨t, hm, ht⟩
      exact ⟨u, List.mem_cons_of_mem _ hu, hun⟩

theorem rangeOver_fails (hv : List.Forall₂ Ty.Conforms types args)
    (hi : rangeElement types = .error e) : ∃ e', rangeOver fuel args s = .error (.error e') s := by
  obtain ⟨ha, hn⟩ := of_rangeElement_error hi
  obtain ⟨e', he⟩ := rangeElement_fails (any_notMem_tys args) (exists_ty_not_numeric hv ha hn)
  refine ⟨e', ?_⟩
  unfold rangeOver
  exact Run.bind_error _ (by rw [he]; rfl)

theorem of_map_list (h : (rangeElement types).map Ty.list = .ok t) :
    ∃ elem, rangeElement types = .ok elem ∧ t = .list elem := by
  cases he : rangeElement types with
  | error e => rw [he] at h; cases h
  | ok elem => rw [he] at h; cases h; exact ⟨elem, rfl, rfl⟩

theorem conforms_invoke {op : Operator} (hop : op ≠ .range)
    (hv : List.Forall₂ Ty.Conforms types args) (hi : op.infer types = .ok t)
    (h : op.invoke fuel args s = .ok r s₁) : t.Conforms r := by
  cases op with
  | arith op =>
    rcases hv with _ | ⟨hv, _ | ⟨hw, _ | _⟩⟩
    case cons.cons.nil => exact Arith.conforms_invoke hv hw hi h
    all_goals cases hi
  | compare op =>
    rcases hv with _ | ⟨hv, _ | ⟨hw, _ | _⟩⟩
    case cons.cons.nil =>
      have hi : inferCompare op _ _ = .ok t := hi
      unfold inferCompare at hi
      split at hi <;> cases hi
      exact Comparison.conforms_invoke h
    all_goals cases hi
  | negate =>
    rcases hv with _ | ⟨hv, _ | _⟩
    case cons.nil => exact conforms_negateValue hv hi (Run.ok_of_ofExcept h)
    all_goals cases hi
  | not =>
    rcases hv with _ | ⟨hv, _ | _⟩
    case cons.nil => cases hi; cases h; exact Ty.conforms_bool _
    all_goals cases hi
  | range => exact absurd rfl hop

theorem conforms_invokeRange (hv : List.Forall₂ Ty.Conforms types args)
    (hi : range.infer types = .ok t) (h : range.invoke fuel args s = .ok r s₁) :
    ∃ elem ref, t = .list elem ∧ r = .list ref ∧ ∀ item ∈ s₁.items ref, elem.Conforms item := by
  have hover : (rangeElement types).map Ty.list = .ok t ∧ rangeOver fuel args s = .ok r s₁ := by
    rcases hv with _ | ⟨-, _ | ⟨-, _ | ⟨-, _ | -⟩⟩⟩
    case cons.cons.nil => exact ⟨hi, h⟩
    case cons.cons.cons.nil => exact ⟨hi, h⟩
    all_goals cases hi
  obtain ⟨elem, he, ht⟩ := of_map_list hover.1
  obtain ⟨ref, hr, hitems⟩ := conforms_range hv he hover.2
  exact ⟨elem, ref, ht, hr, hitems⟩

theorem invoke_fails {op : Operator} (hv : List.Forall₂ Ty.Conforms types args)
    (hi : op.infer types = .error e) : ∃ e', op.invoke fuel args s = .error (.error e') s := by
  cases op with
  | arith op =>
    rcases hv with _ | ⟨hv, _ | ⟨hw, _ | _⟩⟩
    case cons.cons.nil => exact Arith.invoke_fails hv hw hi
    all_goals exact ⟨_, rfl⟩
  | compare op =>
    rcases hv with _ | ⟨hv, _ | ⟨hw, _ | _⟩⟩
    case cons.cons.nil => exact Comparison.invoke_fails hv hw hi
    all_goals exact ⟨_, rfl⟩
  | negate =>
    rcases hv with _ | ⟨hv, _ | _⟩
    case cons.nil =>
      obtain ⟨e', he⟩ := negateValue_fails hv hi
      exact ⟨e', by rw [invoke, he]; rfl⟩
    all_goals exact ⟨_, rfl⟩
  | not =>
    rcases hv with _ | ⟨hv, _ | _⟩
    case cons.nil => cases hi
    all_goals exact ⟨_, rfl⟩
  | range =>
    have range (hi : (rangeElement types).map Ty.list = .error e) :
        ∃ e', rangeOver fuel args s = .error (.error e') s := by
      cases he : rangeElement types with
      | ok elem => rw [he] at hi; cases hi
      | error e₁ => exact rangeOver_fails hv he
    rcases hv with _ | ⟨-, _ | ⟨-, _ | ⟨-, _ | -⟩⟩⟩
    case cons.cons.nil => exact range hi
    case cons.cons.cons.nil => exact range hi
    all_goals exact ⟨_, rfl⟩

/-- The static type of an operator tells what it does. On operands that conform to their types, a result
conforms to the inferred type, so that a cast to it does nothing, and so do the elements of a range;
operands of types that are rejected are rejected, and the store is left as it was. -/
theorem infer_adequate (op : Operator) (hv : List.Forall₂ Ty.Conforms types args) (fuel : Nat)
    (s : Store) :
    (∀ t, op.infer types = .ok t → ∀ r s₁, op.invoke fuel args s = .ok r s₁ →
      t.Conforms r ∧ (∀ note, t.castNoting note r = .ok r) ∧
        (op = .range → ∃ elem ref, t = .list elem ∧ r = .list ref ∧
          ∀ item ∈ s₁.items ref, elem.Conforms item)) ∧
      ∀ e, op.infer types = .error e → ∃ e', op.invoke fuel args s = .error (.error e') s := by
  refine ⟨fun t hi r s₁ hr => ?_, fun e hi => invoke_fails hv hi⟩
  by_cases hop : op = .range
  · subst hop
    obtain ⟨elem, ref, rfl, rfl, hitems⟩ := conforms_invokeRange hv hi hr
    have ht := Ty.conforms_list elem ref
    exact ⟨ht, ht.castNoting, fun _ => ⟨elem, ref, rfl, rfl, hitems⟩⟩
  · have ht := conforms_invoke hop hv hi hr
    exact ⟨ht, ht.castNoting, fun h => absurd h hop⟩

/-- The range from a character to a long number is a list of long numbers. -/
theorem infer_adequate_span : ∃ ref s₁,
    range.invoke 0 [.char 'a', .long 98] {} = .ok (.list ref) s₁ ∧
      ∀ item ∈ s₁.items ref, Ty.long.Conforms item := by
  have hv : List.Forall₂ Ty.Conforms [.char, .long] [.char 'a', .long 98] :=
    .cons rfl (.cons rfl .nil)
  have hr : ∃ ref s₁, range.invoke 0 [.char 'a', .long 98] {} = .ok (.list ref) s₁ := ⟨_, _, rfl⟩
  obtain ⟨ref, s₁, hr⟩ := hr
  obtain ⟨elem, ref', ht, hr', hitems⟩ :=
    ((infer_adequate .range hv 0 {}).1 (.list .long) rfl _ s₁ hr).2.2 rfl
  cases ht
  cases hr'
  exact ⟨ref, s₁, hr, hitems⟩

end Operator

end ExprCore
