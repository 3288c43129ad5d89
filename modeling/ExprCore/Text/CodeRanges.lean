/-!
Sets of characters, given by ranges of code points.
-/

namespace ExprCore.Text
set_option autoImplicit false

/-- The first and the last code point of each range, in ascending order. -/
abbrev CodeRanges := List (Nat × Nat)

namespace CodeRanges

def contains (ranges : CodeRanges) (c : Char) : Bool :=
  ranges.any fun (first, last) => first ≤ c.toNat && c.toNat ≤ last

theorem contains_iff {ranges : CodeRanges} {c : Char} :
    ranges.contains c = true ↔ ∃ r ∈ ranges, r.1 ≤ c.toNat ∧ c.toNat ≤ r.2 := by
  simp [contains]

/-- A character between two bounds is in none of the ranges, if they all leave out what lies
between the bounds. -/
theorem contains_eq_false {ranges : CodeRanges} {first last : Nat}
    (h : (ranges.all fun r => r.2 < first || last < r.1) = true) {c : Char}
    (hfirst : first ≤ c.toNat) (hlast : c.toNat ≤ last) : ranges.contains c = false := by
  by_cases hc : ranges.contains c = true
  · rcases contains_iff.mp hc with ⟨r, hr, hlo, hhi⟩
    have hout := List.all_eq_true.mp h r hr
    simp only [Bool.or_eq_true, decide_eq_true_eq] at hout
    omega
  · simpa using hc

end CodeRanges

end ExprCore.Text
