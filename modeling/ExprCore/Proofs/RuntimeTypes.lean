import ExprCore.Proofs.Joins

/-!
What a value is. A value conforms to its runtime type, and to every type that contains a type it conforms to,
up to a widening of numbers that is undone by going back. The runtime type test of a value tells whether
conversion leaves it alone.
-/

namespace ExprCore
set_option autoImplicit false

namespace Value

theorem char?_toNat (c : Char) : char? c.toNat = some (.char c) := by
  rw [char?, if_pos ⟨Int.natCast_nonneg _, c.valid⟩, Int.toNat_natCast, Char.ofNat_toNat]

theorem int?_toInt (n : Int32) : int? n.toInt = some (.int n) := by
  rw [int?, if_pos ⟨n.le_toInt, n.toInt_lt⟩, Int32.ofInt_toInt]

theorem long?_toInt (n : Int64) : long? n.toInt = some (.long n) := by
  rw [long?, if_pos ⟨n.le_toInt, n.toInt_lt⟩, Int64.ofInt_toInt]

end Value

namespace Ty

variable {s t : Ty} {v w : Value}

theorem castIntegral_eq_ok_iff {make? : Int → Option Value} :
    castIntegral t make? v = .ok w ↔ ∃ n, v.truncated? = some n ∧ make? n = some w := by
  unfold castIntegral
  cases v.truncated? with
  | none => exact iff_of_false nofun nofun
  | some n =>
    cases hn : make? n with
    | none => simp [hn]
    | some u => simp [hn]

theorem exists_castIntegral {n : Nat} (ht : t.rank? = some n) (hd : t ≠ .double) :
    ∃ make? : Int → Option Value, (∀ v, t.cast v = castIntegral t make? v) ∧
      ∀ {k w}, make? k = some w → w.truncated? = some k := by
  cases t with
  | char => exact ⟨_, fun _ => rfl, Value.truncated?_of_char?⟩
  | int => exact ⟨_, fun _ => rfl, Value.truncated?_of_int?⟩
  | long => exact ⟨_, fun _ => rfl, Value.truncated?_of_long?⟩
  | double => exact absurd rfl hd
  | _ => cases ht

theorem cast_back {m n : Nat} (ht : t.rank? = some m) (hs : s.rank? = some n) (htd : t ≠ .double)
    (hsd : s ≠ .double) (hv : t.Conforms v) (hw : s.cast v = .ok w) : t.cast w = .ok v := by
  obtain ⟨makeT, hcastT, -⟩ := exists_castIntegral ht htd
  obtain ⟨makeS, hcastS, htrunc⟩ := exists_castIntegral hs hsd
  rw [Conforms, hcastT, castIntegral_eq_ok_iff] at hv
  rw [hcastS, castIntegral_eq_ok_iff] at hw
  obtain ⟨k, hk, hv⟩ := hv
  obtain ⟨k', hk', hw⟩ := hw
  obtain rfl : k = k' := Option.some.inj (hk.symm.trans hk')
  rw [hcastT, castIntegral_eq_ok_iff]
  exact ⟨k, htrunc hw, hv⟩

/-- A value of a type converts to the types that contain it, and back again unless it became a floating-point
number on the way. -/
theorem Conforms.widen (hv : t.Conforms v) (h : s.contains t = true) :
    ∃ w, s.cast v = .ok w ∧ (s ≠ .double → t.cast w = .ok v) := by
  cases contains_iff.mp h with
  | refl => exact ⟨v, hv, fun _ => hv⟩
  | void _ hp => cases hp
  | any => exact ⟨v, rfl, fun _ => hv⟩
  | null hs =>
    cases v with
    | null => exact ⟨.null, cast_null hs, fun _ => rfl⟩
    | _ => cases hv
  | list | map | function =>
    cases v <;> first | exact ⟨_, rfl, fun _ => hv⟩ | cases hv
  | @array a b hab =>
    cases v with
    | null => exact ⟨.null, rfl, fun _ => rfl⟩
    | array elem r =>
      have ha : a.contains elem = true := cast_array_iff.mp ⟨_, hv⟩
      have hb : b.contains elem = true := contains_iff.mpr ((contains_iff.mp ha).trans hab)
      exact ⟨_, if_pos hb, fun _ => hv⟩
    | _ => cases hv
  | number ht hs hle =>
    obtain ⟨w, hw⟩ := cast_widens hv ht hs hle
    refine ⟨w, hw, fun hsd => cast_back ht hs ?_ hsd hv hw⟩
    -- only `double` has the rank of `double`, and none has a higher one
    rintro rfl
    cases ht
    cases s <;> first | exact hsd rfl | cases hs <;> exact absurd hle (by decide)

theorem conforms_ty (v : Value) : v.ty.Conforms v := by
  cases v with
  | char c => exact (castIntegral_eq_ok_iff (v := .char c)).mpr ⟨c.toNat, rfl, Value.char?_toNat c⟩
  | int n => exact (castIntegral_eq_ok_iff (v := .int n)).mpr ⟨n.toInt, rfl, Value.int?_toInt n⟩
  | long n => exact (castIntegral_eq_ok_iff (v := .long n)).mpr ⟨n.toInt, rfl, Value.long?_toInt n⟩
  | array elem r => exact if_pos (contains_self elem)
  | host className r => exact if_pos rfl
  | _ => rfl

/-- Of the types whose values may have runtime types of the same kind, conformance asks for the kind alone. -/
theorem conforms_iff_kind (ht : t.kind = .list ∨ t.kind = .map ∨ t.kind = .function) (hv : v ≠ .null) :
    t.Conforms v ↔ v.ty.kind = t.kind := by
  cases t with
  | list | map | function =>
    cases v with
    | null => exact absurd rfl hv
    | list | map | function => first | exact iff_of_true rfl rfl | exact iff_of_false nofun nofun
    | _ => exact iff_of_false nofun nofun
  | _ => simp [kind] at ht

/-- A value conforms to a type of arrays if its runtime type is contained in it. -/
theorem conforms_array_iff {elem : Ty} (hv : v ≠ .null) :
    (array elem).Conforms v ↔ (array elem).contains v.ty = true := by
  cases v with
  | null => exact absurd rfl hv
  | array elem' r =>
    have hty : (array elem).contains (Value.array elem' r).ty = elem.contains elem' :=
      contains_inside (f := array) (by simp [wrappers]) elem elem'
    rw [hty, ← cast_array_iff (r := r)]
    refine ⟨fun h => ⟨_, h⟩, ?_⟩
    rintro ⟨w, hw⟩
    have hvoid : array elem ≠ .void := by simp
    rw [Conforms, hw, cast_eq_self rfl hvoid hw]
  | _ =>
    constructor
    · intro h
      cases h
    · intro h
      cases h

end Ty

/-- The runtime type test of a value tells whether conversion leaves it alone. -/
theorem Value.isInstance_iff {v : Value} (hnull : v ≠ .null) (hvoid : v ≠ .void) (t : Ty) :
    v.isInstance t = true ↔ t.Conforms v := by
  have htest : (v.isNull || v.isVoid) = false := by
    cases v with
    | null => exact absurd rfl hnull
    | void => exact absurd rfl hvoid
    | _ => rfl
  have hself (h : v.ty = t) : t.Conforms v := h ▸ Ty.conforms_ty v
  rw [isInstance, htest, if_neg Bool.false_ne_true]
  cases t with
  | any => exact iff_of_true rfl rfl
  | list | map | function => rw [Ty.conforms_iff_kind (by simp [Ty.kind]) hnull]; exact decide_eq_true_iff
  | array elem => exact (Ty.conforms_array_iff hnull).symm
  | char | int | long | double => exact decide_eq_true_iff.trans ⟨hself, fun h => h.ty_eq rfl⟩
  | host className =>
    refine decide_eq_true_iff.trans ⟨hself, fun h => ?_⟩
    cases v with
    | null => exact absurd rfl hnull
    | host className' r =>
      by_cases hc : className' = className
      · exact congrArg Ty.host hc
      · cases (if_neg hc).symm.trans h
    | _ => cases h
  | void | null | bool | str | buffer | object =>
    refine decide_eq_true_iff.trans ⟨hself, fun h => ?_⟩
    cases v with
    | null => exact absurd rfl hnull
    | _ => first | rfl | cases h

/-- Conversion goes with containment. What a conversion yields is of its type, and is the value itself unless
numbers or `void` are involved; the runtime type of a value and the default of a type are such types and
values. A value of a type converts to every type that contains it, and unless that is `double`, back to
itself. -/
theorem Ty.cast_coherent (s t : Ty) (v : Value) :
    (∀ w, t.cast v = .ok w → t.cast w = .ok w ∧ (t ≠ .void → t.isNumeric = false → w = v)) ∧
    v.ty.cast v = .ok v ∧
    t.cast t.default = .ok t.default ∧
    (s.contains t = true → t.cast v = .ok v →
      ∃ w, s.cast v = .ok w ∧ (s ≠ .double → t.cast w = .ok v)) := by
  refine ⟨fun w h => ⟨conforms_of_cast h, ?_⟩, conforms_ty v, conforms_default t, fun h hv => Conforms.widen hv h⟩
  intro hvoid hnum
  exact cast_eq_self hnum hvoid h

/-- An array of arrays of characters is one of arrays of floating-point numbers, and stays what it is. -/
theorem Ty.cast_coherent_arrays :
    let t : Ty := .array (.array .int)
    let s : Ty := .array (.array .double)
    let v : Value := .array (.array .char) 0
    s.contains t = true ∧ t.cast v = .ok v ∧ ∃ w, s.cast v = .ok w ∧ t.cast w = .ok v := by
  intro t s v
  have hv : t.cast v = .ok v := rfl
  obtain ⟨w, hw, hback⟩ := (cast_coherent s t v).2.2.2 rfl hv
  exact ⟨rfl, hv, w, hw, hback nofun⟩

/-- A runtime type test yields true of a value, neither null nor `void`, if conversion to the type leaves the
value alone, and false otherwise. -/
theorem instanceOf_iff_unconverted {host : Host} {n : Nat} {env : Env} {e : Expr} {s s' : Store} {v : Value}
    (hv : eval host n env e s = .ok v s') (hnull : v ≠ .null) (hvoid : v ≠ .void) (t : Ty) :
    ∃ b, eval host (n + 1) env (.instanceOf e t) s = .ok (.bool b) s' ∧ (b = true ↔ t.cast v = .ok v) := by
  refine ⟨v.isInstance t, ?_, Value.isInstance_iff hnull hvoid t⟩
  rw [eval_succ]
  exact Run.bind_ok _ hv

/-- An array of integers is an array of floating-point numbers, although an integer is not one of them. -/
theorem instanceOf_iff_unconverted_array :
    let host := standardHost 0
    let one : Expr := .literal (.int 1) .int
    (∃ s, eval host 2 [] (.arrayLiteral .int [one]) {} = .ok (.array .int 0) s ∧
      eval host 3 [] (.instanceOf (.arrayLiteral .int [one]) (.array .double)) {} = .ok (.bool true) s) ∧
    eval host 1 [] one {} = .ok (.int 1) {} ∧
      eval host 2 [] (.instanceOf one .double) {} = .ok (.bool false) {} := by
  intro host one
  have harray : ∃ s, eval host 2 [] (.arrayLiteral .int [one]) {} = .ok (.array .int 0) s := ⟨_, rfl⟩
  have hone : eval host 1 [] one {} = .ok (.int 1) {} := rfl
  constructor
  · obtain ⟨s, hs⟩ := harray
    obtain ⟨b, hb, htrue⟩ := instanceOf_iff_unconverted hs nofun nofun (.array .double)
    rw [htrue.mpr rfl] at hb
    exact ⟨s, hs, hb⟩
  · obtain ⟨b, hb, htrue⟩ := instanceOf_iff_unconverted hone nofun nofun .double
    cases b with
    | false => exact ⟨hone, hb⟩
    | true => cases htrue.mp rfl

end ExprCore
