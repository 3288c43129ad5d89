import ExprCore.Proofs.Arithmetic
import ExprCore.Proofs.RuntimeTypes
import Mathlib.Data.List.Nodup

/-!
Ranges over integers and characters. The numbers from one to another by a step are exactly those of the
arithmetic progression that do not pass the end, also where the next one would not fit into 64 bits. A range
has them as its elements, in the type that the ends and the step decide. Only a range of characters may
fail, if it meets a number that stands for no character.
-/

namespace ExprCore
set_option autoImplicit false

namespace Operator

variable {first last step k : Int} {ks : List Int}

def Reaches (last step k : Int) : Prop := (0 < step ∧ k ≤ last) ∨ (step < 0 ∧ last ≤ k)

instance (last step k : Int) : Decidable (Reaches last step k) := inferInstanceAs (Decidable (_ ∨ _))

/-- The numbers `first`, `first + step`, `first + 2 * step` and so on that do not pass `last`, in order. -/
def IsProgression (first last step : Int) (ks : List Int) : Prop :=
  ∀ (i : Nat) (k : Int), ks[i]? = some k ↔ k = first + i * step ∧ Reaches last step k

theorem inReach_iff : inReach last step k = true ↔ Reaches last step k := by
  simp [inReach, Reaches]

theorem Reaches.between {i : Nat} (h : Reaches last step (k + i * step)) :
    (0 < step ∧ k ≤ k + i * step ∧ k + i * step ≤ last) ∨
      (step < 0 ∧ last ≤ k + i * step ∧ k + i * step ≤ k) := by
  rcases h with ⟨hs, hk⟩ | ⟨hs, hk⟩
  · have hi : 0 ≤ (i : Int) * step := Int.mul_nonneg (Int.natCast_nonneg i) (Int.le_of_lt hs)
    exact .inl ⟨hs, by omega, hk⟩
  · have hi : (i : Int) * step ≤ 0 := Int.mul_nonpos_of_nonneg_of_nonpos (Int.natCast_nonneg i) (Int.le_of_lt hs)
    exact .inr ⟨hs, hk, by omega⟩

theorem Reaches.of_later {i : Nat} (h : Reaches last step (k + i * step)) : Reaches last step k := by
  rcases h.between with ⟨hs, hfirst, hlast⟩ | ⟨hs, hlast, hfirst⟩
  · exact .inl ⟨hs, hfirst.trans hlast⟩
  · exact .inr ⟨hs, hlast.trans hfirst⟩

theorem isProgression_nil (h : ¬Reaches last step first) : IsProgression first last step [] := by
  intro i k
  refine iff_of_false nofun ?_
  rintro ⟨rfl, hk⟩
  exact h hk.of_later

theorem IsProgression.cons (h : IsProgression (first + step) last step ks) (hf : Reaches last step first) :
    IsProgression first last step (first :: ks) := by
  intro i k
  cases i with
  | zero =>
    simp only [List.getElem?_cons_zero, Option.some.injEq, Int.natCast_zero, Int.zero_mul, Int.add_zero]
    constructor
    · rintro rfl
      exact ⟨rfl, hf⟩
    · exact fun hk => hk.1.symm
  | succ i =>
    have hi : first + ((i + 1 : Nat) : Int) * step = first + step + i * step := by
      rw [Int.natCast_succ, Int.add_mul, Int.one_mul]
      omega
    rw [List.getElem?_cons_succ, h i k, hi]

theorem IsProgression.between (h : IsProgression first last step ks) (hk : k ∈ ks) :
    (first ≤ k ∧ k ≤ last) ∨ (last ≤ k ∧ k ≤ first) := by
  obtain ⟨i, hi⟩ := List.mem_iff_getElem?.mp hk
  obtain ⟨rfl, hreach⟩ := (h i k).mp hi
  rcases hreach.between with ⟨-, hbetween⟩ | ⟨-, hbetween⟩
  · exact .inl hbetween
  · exact .inr hbetween

theorem IsProgression.nodup (h : IsProgression first last step ks) : ks.Nodup := by
  rw [List.nodup_iff_getElem?_ne_getElem?]
  intro i j hij hj heq
  obtain ⟨hk, hreach⟩ := (h j _).mp (List.getElem?_eq_getElem hj)
  obtain ⟨hk', -⟩ := (h i _).mp (heq.trans (List.getElem?_eq_getElem hj))
  have hstep : step ≠ 0 := by
    unfold Reaches at hreach
    omega
  have hmul : (i : Int) * step = j * step := by omega
  have := Int.eq_of_mul_eq_mul_right hstep hmul
  omega

/-- A walk with no bound on how many steps it takes. With the numbers `walked` behind it and `k` ahead, it ends
with `ks`: where `k` passes the end, or where the number after `k` would leave 64 bits. -/
inductive Walks (last step : Int) : List Int → Int → List Int → Prop where
  | passed {walked : List Int} {k : Int} (h : ¬Reaches last step k) : Walks last step walked k walked
  | limit {walked : List Int} {k : Int} (h : Reaches last step k) (hl : ¬Ty.long.Holds (k + step)) :
    Walks last step walked k (walked ++ [k])
  | next {walked ks : List Int} {k : Int} (h : Reaches last step k) (hl : Ty.long.Holds (k + step))
    (hw : Walks last step (walked ++ [k]) (k + step) ks) : Walks last step walked k ks

namespace Walks

variable {walked ks' : List Int}

theorem unique (h : Walks last step walked k ks) (h' : Walks last step walked k ks') : ks = ks' := by
  induction h with
  | passed hn =>
    cases h' with
    | passed => rfl
    | limit hr => exact absurd hr hn
    | next hr => exact absurd hr hn
  | limit hr hl =>
    cases h' with
    | passed hn => exact absurd hr hn
    | limit => rfl
    | next _ hfit => exact absurd hfit hl
  | next hr hl _ ih =>
    cases h' with
    | passed hn => exact absurd hr hn
    | limit _ hno => exact absurd hl hno
    | next _ _ hw => exact ih hw

/-- A walk goes through the progression from where it stands. It ends before 64 bits only where the end is passed
as well. -/
theorem isProgression (h : Walks last step walked k ks) (hk : Ty.long.Holds k) (hlast : Ty.long.Holds last) :
    ∃ more, ks = walked ++ more ∧ IsProgression k last step more := by
  induction h with
  | passed hn => exact ⟨[], (List.append_nil _).symm, isProgression_nil hn⟩
  | @limit walked k hr hl =>
    refine ⟨[k], rfl, (isProgression_nil ?_).cons hr⟩
    intro hpass
    apply hl
    unfold Reaches at hr hpass
    unfold Ty.Holds at hk hlast ⊢
    omega
  | @next walked ks k hr hl _ ih =>
    obtain ⟨more, rfl, hp⟩ := ih hl
    exact ⟨k :: more, by simp, hp.cons hr⟩

end Walks

/-- With a step for every number between here and the end, the bound on the steps never ends a walk. -/
theorem walks_walk {n : Nat} (walked : List Int) (hn : Reaches last step k → (last - k).natAbs < n) :
    Walks last step walked.reverse k (walk last step n walked k) := by
  induction n generalizing walked k with
  | zero => exact .passed fun h => Nat.not_lt_zero _ (hn h)
  | succ n ih =>
    rw [walk]
    by_cases hr : Reaches last step k
    · rw [if_pos (inReach_iff.mpr hr)]
      have hnext : (Value.long? (k + step)).isSome = decide (Ty.long.Holds (k + step)) :=
        Value.isSome_ofInteger? .long (k + step)
      rw [hnext]
      by_cases hfit : Ty.long.Holds (k + step)
      · rw [if_pos (decide_eq_true hfit)]
        have hcloser : Reaches last step (k + step) → (last - (k + step)).natAbs < n := by
          have := hn hr
          unfold Reaches at hr ⊢
          omega
        have hwalk := ih (k :: walked) hcloser
        rw [List.reverse_cons] at hwalk
        exact .next hr hfit hwalk
      · rw [decide_eq_false hfit, if_neg Bool.false_ne_true, List.reverse_cons]
        exact .limit hr hfit
    · rw [if_neg (fun h => hr (inReach_iff.mp h))]
      exact .passed hr

theorem walks_integralSteps (first last step : Int) :
    Walks last step [] first (integralSteps first last step) :=
  walks_walk [] fun _ => Nat.lt_succ_self _

theorem isProgression_integralSteps (hfirst : Ty.long.Holds first) (hlast : Ty.long.Holds last) (step : Int) :
    IsProgression first last step (integralSteps first last step) := by
  obtain ⟨ks, hks, hp⟩ := (walks_integralSteps first last step).isProgression hfirst hlast
  rw [hks, List.nil_append]
  exact hp

/-- The walk of a range over 64-bit numbers ends by itself, whether it passes the end or would leave 64 bits, and
in either case it has gone through the progression: in order, through all of the numbers that do not pass the
end, and through none of them twice. -/
theorem integralSteps_exact (first last step : Int64) :
    (∀ ks, Walks last.toInt step.toInt [] first.toInt ks ↔
      ks = integralSteps first.toInt last.toInt step.toInt) ∧
    let ks := integralSteps first.toInt last.toInt step.toInt
    IsProgression first.toInt last.toInt step.toInt ks ∧ ks.Nodup ∧ ∀ k ∈ ks, Ty.long.Holds k := by
  let ks := integralSteps first.toInt last.toInt step.toInt
  have hfirst := Ty.holds_toInt64 first
  have hlast := Ty.holds_toInt64 last
  have hwalks : Walks last.toInt step.toInt [] first.toInt ks := walks_integralSteps _ _ _
  have hp : IsProgression first.toInt last.toInt step.toInt ks := isProgression_integralSteps hfirst hlast _
  refine ⟨fun ks' => ⟨fun h => h.unique hwalks, fun h => h ▸ hwalks⟩, hp, hp.nodup, ?_⟩
  intro k hk
  have hbetween := hp.between hk
  unfold Ty.Holds at hfirst hlast ⊢
  omega

/-- Down to the least number of 64 bits, which has no predecessor. -/
example : integralSteps (-9223372036854775806) (-9223372036854775808) (-2) =
    [-9223372036854775806, -9223372036854775808] := by decide

/-- The code points that stand for no character. -/
def Surrogate (k : Int) : Prop := 0xD800 ≤ k ∧ k < 0xE000

def rangeType (a b : Value) (args : List Value) : Ty :=
  if a.ty = .char ∧ b.ty = .char then .char else integerType args

def step? (first last : Int) : Option Value → Option Int
  | none => some (if first ≤ last then 1 else -1)
  | some v => v.integral?

section
variable {a b : Value} {c : Option Value} {m n : Int} {fuel : Nat} {s : Store}

theorem holds_long_of_integral? {v : Value} (h : v.integral? = some k) : Ty.long.Holds k := by
  have hv : (integerType [v]).Holds k := holds_of_integral? (List.mem_singleton_self v) h
  rcases integerType_eq [v] with ht | ht <;> rw [ht] at hv
  · exact Ty.holds_long_of_int hv
  · exact hv

theorem ty_of_integral? {v : Value} (h : v.integral? = some k) : v.ty = .char ∨ v.ty = .int ∨ v.ty = .long := by
  cases v with
  | char | int | long => simp [Value.ty]
  | _ => cases h

theorem of?_of_integral? {v : Value} (h : v.integral? = some k) :
    ∃ x, Num.of? v = some x ∧ integer? x = some k := by
  cases v <;> cases h <;> exact ⟨_, rfl, rfl⟩

theorem rangeElement_integral {args : List Value} (h : ∀ v ∈ a :: b :: args, ∃ k, v.integral? = some k) :
    rangeElement ((a :: b :: args).map Value.ty) = .ok (rangeType a b (a :: b :: args)) := by
  have hty : ∀ t ∈ (a :: b :: args).map Value.ty, t = .char ∨ t = .int ∨ t = .long := by
    intro t ht
    obtain ⟨v, hv, rfl⟩ := List.mem_map.mp ht
    obtain ⟨k, hk⟩ := h v hv
    exact ty_of_integral? hk
  have hany : Ty.any ∉ (a :: b :: args).map Value.ty := fun hm => by simpa using hty _ hm
  have hdouble : Ty.double ∉ (a :: b :: args).map Value.ty := fun hm => by simpa using hty _ hm
  have hnumeric : ((a :: b :: args).map Value.ty).find? (!·.isNumeric) = none := by
    rw [List.find?_eq_none]
    intro t ht
    rcases hty t ht with rfl | rfl | rfl <;> decide
  rw [rangeElement, if_neg hany, hnumeric]
  simp only
  rw [if_neg hdouble]
  by_cases hchars : a.ty = .char ∧ b.ty = .char
  · rw [rangeType, if_pos hchars, if_pos (by simp [hchars])]
  · rw [rangeType, if_neg hchars, if_neg (by simpa using hchars), integerType]
    split <;> rfl

theorem rangeType_cases (a b : Value) (args : List Value) :
    rangeType a b args = .char ∨ rangeType a b args = .int ∨ rangeType a b args = .long := by
  unfold rangeType
  split
  · exact .inl rfl
  · exact .inr (integerType_eq args)

/-- A range over integers and characters casts the numbers of the walk to the type of its elements. -/
theorem invoke_range (ha : a.integral? = some m) (hb : b.integral? = some n)
    (hc : step? m n c = some k) (hk : k ≠ 0) :
    invoke .range fuel (a :: b :: c.toList) = (do
      let t := rangeType a b (a :: b :: c.toList)
      Run.newList (← Run.ofExcept ((integralSteps m n k).mapM fun j => t.cast (.long (Int64.ofInt j))))) := by
  have hrange : invoke .range fuel (a :: b :: c.toList) = rangeOver fuel (a :: b :: c.toList) := by
    cases c <;> rfl
  have hargs : ∀ v ∈ a :: b :: c.toList, ∃ k, v.integral? = some k := by
    intro v hv
    rcases List.mem_cons.mp hv with rfl | hv
    · exact ⟨m, ha⟩
    rcases List.mem_cons.mp hv with rfl | hv
    · exact ⟨n, hb⟩
    cases Option.mem_toList.mp hv
    exact ⟨k, hc⟩
  have hdouble : rangeType a b (a :: b :: c.toList) ≠ .double := by
    rcases rangeType_cases a b (a :: b :: c.toList) with h | h | h <;> rw [h] <;> decide
  obtain ⟨x, hx, hxm⟩ := of?_of_integral? ha
  obtain ⟨y, hy, hyn⟩ := of?_of_integral? hb
  rw [hrange, rangeOver, rangeElement_integral hargs]
  simp only [List.filterMap_cons, hx, hy]
  show (if rangeType a b (a :: b :: c.toList) = .double then _ else _) = _
  rw [if_neg hdouble, hxm, hyn]
  cases c with
  | none =>
    cases hc
    exact if_neg hk
  | some v =>
    obtain ⟨z, hz, hzk⟩ := of?_of_integral? hc
    simp only [Option.toList_some, List.filterMap_cons, hz, List.head?_cons, Option.bind_some, hzk]
    exact if_neg hk

/-- The value of a type of integers or characters that stands for a number. -/
def Stands (t : Ty) (k : Int) (v : Value) : Prop := v.ty = t ∧ v.integral? = some k

theorem truncated?_long (hk : Ty.long.Holds k) : (Value.long (Int64.ofInt k)).truncated? = some k :=
  congrArg some (Int64.toInt_ofInt_of_le hk.1 hk.2)

theorem exists_cast_integer {t : Ty} (ht : t = .int ∨ t = .long) (hk : t.Holds k) :
    ∃ v, t.cast (.long (Int64.ofInt k)) = .ok v ∧ Stands t k v := by
  obtain ⟨v, hv, hstands⟩ := Value.exists_ofInteger? hk
  refine ⟨v, ?_, hstands⟩
  rcases ht with rfl | rfl
  · exact Ty.castIntegral_eq_ok_iff.mpr ⟨k, truncated?_long (Ty.holds_long_of_int hk), hv⟩
  · exact Ty.castIntegral_eq_ok_iff.mpr ⟨k, truncated?_long hk, hv⟩

theorem exists_cast_char (hk : 0 ≤ k ∧ k < 0x110000) (hs : ¬Surrogate k) :
    ∃ v, Ty.char.cast (.long (Int64.ofInt k)) = .ok v ∧ Stands .char k v := by
  have hvalid : k.toNat.isValidChar := by
    unfold Surrogate at hs
    unfold Nat.isValidChar
    omega
  have hc : Value.char? k = some (.char (Char.ofNat k.toNat)) := if_pos ⟨hk.1, hvalid⟩
  have hlong : Ty.long.Holds k := by
    rw [Ty.holds_long_iff]
    omega
  exact ⟨_, Ty.castIntegral_eq_ok_iff.mpr ⟨k, truncated?_long hlong, hc⟩, rfl, Value.truncated?_of_char? hc⟩

theorem cast_surrogate (hs : Surrogate k) :
    Ty.char.cast (.long (Int64.ofInt k)) = .error (.overflow "conversion to char") := by
  unfold Surrogate at hs
  have hlong : Ty.long.Holds k := by
    rw [Ty.holds_long_iff]
    omega
  have hc : Value.char? k = none := by
    apply if_neg
    rintro ⟨-, hvalid⟩
    unfold Nat.isValidChar at hvalid
    omega
  have hcast : Ty.char.cast (.long (Int64.ofInt k)) = Ty.castIntegral .char Value.char? (.long (Int64.ofInt k)) :=
    rfl
  rw [hcast, Ty.castIntegral, truncated?_long hlong]
  simp only [hc]
  rfl

theorem exists_char (ha : a.integral? = some m) (hchar : a.ty = .char) : ∃ x : Char, m = x.toNat := by
  cases a with
  | char x => exact ⟨x, (Option.some.inj ha).symm⟩
  | _ => cases hchar

/-- Of the numbers of a range, only those fail to be elements that would be characters and stand for none. -/
theorem cast_element {args : List Value} (ha : a.integral? = some m) (hb : b.integral? = some n)
    (hp : IsProgression m n k ks) {j : Int} (hj : j ∈ ks) :
    let t := rangeType a b (a :: b :: args)
    (¬(t = .char ∧ Surrogate j) → ∃ v, t.cast (.long (Int64.ofInt j)) = .ok v ∧ Stands t j v) ∧
      (t = .char ∧ Surrogate j → t.cast (.long (Int64.ofInt j)) = .error (.overflow "conversion to char")) := by
  intro t
  have hbetween := hp.between hj
  constructor
  · intro hs
    by_cases hchars : a.ty = .char ∧ b.ty = .char
    · have ht : t = .char := if_pos hchars
      obtain ⟨x, rfl⟩ := exists_char ha hchars.1
      obtain ⟨y, rfl⟩ := exists_char hb hchars.2
      rw [ht]
      refine exists_cast_char ?_ fun h => hs ⟨ht, h⟩
      have hx := toNat_lt x
      have hy := toNat_lt y
      omega
    · have ht : t = integerType (a :: b :: args) := if_neg hchars
      have hm : (integerType (a :: b :: args)).Holds m := holds_of_integral? (by simp) ha
      have hn : (integerType (a :: b :: args)).Holds n := holds_of_integral? (by simp) hb
      rw [ht]
      refine exists_cast_integer (integerType_eq _) ?_
      unfold Ty.Holds at hm hn ⊢
      omega
  · rintro ⟨ht, hs⟩
    rw [ht]
    exact cast_surrogate hs

/-- A range enumerates the arithmetic progression from one end by the step, up to and not past the other end.
Its elements are characters if both ends are, else long if an operand is, else integers. Only where an element
would have to be a surrogate character does it fail, and makes no list. -/
theorem range_enumerates (ha : a.integral? = some m) (hb : b.integral? = some n) (hc : step? m n c = some k)
    (hk : k ≠ 0) (fuel : Nat) (s : Store) :
    let args := a :: b :: c.toList
    let t := rangeType a b args
    ∃ ks, IsProgression m n k ks ∧
      ((∀ j ∈ ks, ¬(t = .char ∧ Surrogate j)) →
        ∃ items, invoke .range fuel args s = Run.newList items s ∧ List.Forall₂ (Stands t) ks items) ∧
      ((∃ j ∈ ks, t = .char ∧ Surrogate j) →
        invoke .range fuel args s = .error (.error (.overflow "conversion to char")) s) := by
  intro args t
  let convert (j : Int) : Except EvalError Value := t.cast (.long (Int64.ofInt j))
  have hinvoke : invoke .range fuel args = (do
      Run.newList (← Run.ofExcept ((integralSteps m n k).mapM convert))) :=
    invoke_range ha hb hc hk
  have hp := isProgression_integralSteps (holds_long_of_integral? ha) (holds_long_of_integral? hb) k
  have helement (j : Int) (hj : j ∈ integralSteps m n k) :
      (¬(t = .char ∧ Surrogate j) → ∃ v, convert j = .ok v ∧ Stands t j v) ∧
        (t = .char ∧ Surrogate j → convert j = .error (.overflow "conversion to char")) :=
    cast_element ha hb hp hj
  refine ⟨_, hp, fun hs => ?_, fun hs => ?_⟩
  · obtain ⟨items, hitems⟩ := exists_forall₂ fun j hj => (helement j hj).1 (hs j hj)
    have hmapM : (integralSteps m n k).mapM convert = .ok items :=
      mapM_eq_ok_iff.mpr (hitems.imp fun _ _ h => h.1)
    refine ⟨items, ?_, hitems.imp fun _ _ h => h.2⟩
    rw [hinvoke, hmapM]
    rfl
  · have hmapM : (integralSteps m n k).mapM convert = .error (.overflow "conversion to char") := by
      apply mapM_eq_error
      · intro j hj
        by_cases h : t = .char ∧ Surrogate j
        · exact .inr ((helement j hj).2 h)
        · obtain ⟨v, hv, -⟩ := (helement j hj).1 h
          exact .inl ⟨v, hv⟩
      · obtain ⟨j, hj, h⟩ := hs
        exact ⟨j, hj, (helement j hj).2 h⟩
    rw [hinvoke, hmapM]
    rfl

/-- The last two odd numbers of 64 bits, the larger of which has no successor by two. -/
theorem range_enumerates_limit :
    let a := Value.long 9223372036854775805
    let b := Value.long 9223372036854775807
    let c := some (Value.char '\x02')
    a.integral? = some 9223372036854775805 ∧ b.integral? = some 9223372036854775807 ∧
      step? 9223372036854775805 9223372036854775807 c = some 2 ∧
      ∃ ks items, ks[0]? = some 9223372036854775805 ∧ ks[1]? = some 9223372036854775807 ∧ ks[2]? = none ∧
        invoke .range 0 (a :: b :: c.toList) {} = Run.newList items {} ∧
        List.Forall₂ (Stands .long) ks items := by
  intro a b c
  have ha : a.integral? = some 9223372036854775805 := by decide
  have hb : b.integral? = some 9223372036854775807 := by decide
  have hc : step? 9223372036854775805 9223372036854775807 c = some 2 := by decide
  obtain ⟨ks, hp, hitems, -⟩ := range_enumerates ha hb hc (by decide) 0 {}
  have ht : rangeType a b (a :: b :: c.toList) = .long := by decide
  rw [ht] at hitems
  obtain ⟨items, hinvoke, hstands⟩ := hitems fun j hj h => nomatch h.1
  refine ⟨ha, hb, hc, ks, items, (hp 0 _).mpr (by decide), (hp 1 _).mpr (by decide), ?_, hinvoke, hstands⟩
  rw [Option.eq_none_iff_forall_ne_some]
  intro k hk
  obtain ⟨rfl, hreach⟩ := (hp 2 k).mp hk
  exact absurd hreach (by decide)

/-- The range from the last character before the surrogates to the first one after them, by a step into the
midst of them. -/
theorem range_meets_surrogate :
    let a := Value.char '\ud7ff'
    let b := Value.char '\ue000'
    a.integral? = some 0xd7ff ∧ b.integral? = some 0xe000 ∧ step? 0xd7ff 0xe000 (some (.int 2048)) = some 2048 ∧
      IsProgression 0xd7ff 0xe000 2048 [0xd7ff, 0xdfff] ∧
      invoke .range 0 [a, b, .int 2048] {} = .error (.error (.overflow "conversion to char")) {} := by
  intro a b
  refine ⟨by decide, by decide, by decide, ?_, rfl⟩
  have hend : IsProgression 0xe7ff 0xe000 2048 [] := isProgression_nil (by decide)
  exact (IsProgression.cons hend (by decide)).cons (by decide)

end

end Operator

end ExprCore
