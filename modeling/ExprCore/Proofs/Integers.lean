import ExprCore.Cast

/-!
The integers that a type of integers holds. An integer becomes a value of the type if, and only if, the
type holds it, and what a value stands for is held by the type of that value.
-/

namespace ExprCore
set_option autoImplicit false

theorem toNat_lt (c : Char) : c.toNat < 0x110000 := by
  rcases c.valid with h | h
  · exact Nat.lt_trans h (by decide)
  · exact h.2

namespace Ty

def least : Ty → Int
  | .int => -0x80000000
  | .long => -0x8000000000000000
  | _ => 0

/-- The integers that a type of integers holds; the other types hold none. -/
def Holds (t : Ty) (n : Int) : Prop := t.least ≤ n ∧ n < -t.least

instance (t : Ty) (n : Int) : Decidable (t.Holds n) := inferInstanceAs (Decidable (_ ∧ _))

theorem holds_int_iff {n : Int} : int.Holds n ↔ -0x80000000 ≤ n ∧ n < 0x80000000 := Iff.rfl

theorem holds_long_iff {n : Int} :
    long.Holds n ↔ -0x8000000000000000 ≤ n ∧ n < 0x8000000000000000 := Iff.rfl

theorem holds_long_of_int {n : Int} (h : int.Holds n) : long.Holds n := by
  rw [holds_int_iff] at h
  rw [holds_long_iff]
  omega

theorem holds_toInt32 (n : Int32) : int.Holds n.toInt := ⟨n.le_toInt, n.toInt_lt⟩

theorem holds_toInt64 (n : Int64) : long.Holds n.toInt := ⟨n.le_toInt, n.toInt_lt⟩

theorem holds_toNat (c : Char) : int.Holds c.toNat := by
  have hc := toNat_lt c
  rw [holds_int_iff]
  omega

end Ty

namespace Value

/-- The value of a type of integers that stands for an integer, if the type holds it. -/
def ofInteger? : Ty → Int → Option Value
  | .int => int?
  | .long => long?
  | _ => fun _ => none

theorem exists_ofInteger? {t : Ty} {n : Int} (h : t.Holds n) :
    ∃ v, ofInteger? t n = some v ∧ v.ty = t ∧ v.integral? = some n := by
  cases t with
  | int => exact ⟨_, if_pos h, rfl, congrArg some (Int32.toInt_ofInt_of_le h.1 h.2)⟩
  | long => exact ⟨_, if_pos h, rfl, congrArg some (Int64.toInt_ofInt_of_le h.1 h.2)⟩
  | _ => exact absurd h.2 (Int.not_lt.mpr h.1)

theorem ofInteger?_eq_none {t : Ty} {n : Int} (h : ¬t.Holds n) : ofInteger? t n = none := by
  cases t with
  | int | long => exact if_neg h
  | _ => rfl

theorem isSome_ofInteger? (t : Ty) (n : Int) : (ofInteger? t n).isSome = decide (t.Holds n) := by
  by_cases h : t.Holds n
  · obtain ⟨v, hv, -⟩ := exists_ofInteger? h
    rw [hv, decide_eq_true h]
    rfl
  · rw [ofInteger?_eq_none h, decide_eq_false h]
    rfl

end Value

end ExprCore
