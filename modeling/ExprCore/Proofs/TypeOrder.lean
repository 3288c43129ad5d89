import ExprCore.Ty

/-!
The order of types and their joins. A type contains the types below it in a partial order in which `void`
lies under `any` alone. Joins put `void` on top instead, at every depth: in that order the join of any two
types is their least upper bound, so joins commute and associate. Where `void` does not occur the two
orders are one.
-/

namespace ExprCore.Ty
set_option autoImplicit false

/-- One type is below another if its values convert to the other. `void` stands on top of all types, or
else it has only `any` above it. -/
inductive Below (voidOnTop : Bool) : Ty → Ty → Prop where
  | refl (t : Ty) : Below voidOnTop t t
  | void (t : Ty) : voidOnTop = true → Below voidOnTop t .void
  | any (t : Ty) : (t = .void → voidOnTop = false) → Below voidOnTop t .any
  | null {t : Ty} : t.isReference = true → Below voidOnTop .null t
  | list {a b : Ty} : Below voidOnTop a b → Below voidOnTop (.list a) (.list b)
  | array {a b : Ty} : Below voidOnTop a b → Below voidOnTop (.array a) (.array b)
  | map {a b : Ty} : Below voidOnTop a b → Below voidOnTop (.map a) (.map b)
  | function {a b : Ty} : Below voidOnTop a b → Below voidOnTop (.function a) (.function b)
  | number {a b : Ty} {m n : Nat} : a.rank? = some m → b.rank? = some n → m ≤ n →
      Below voidOnTop a b

def wrappers : List (Ty → Ty) := [.list, .array, .map, .function]

theorem eq_of_rank? {a b : Ty} {n : Nat} (ha : a.rank? = some n) (hb : b.rank? = some n) : a = b := by
  cases a <;> cases ha <;> cases b <;> cases hb <;> rfl

theorem isReference_of_rank? {t : Ty} {n : Nat} (h : t.rank? = some n) : t.isReference = false := by
  cases t <;> cases h <;> rfl

namespace Below

variable {p : Bool} {a b c : Ty}

theorem of_isReference (h : Below p a b) (ha : a.isReference = true) : Below p .null b := by
  cases h with
  | refl => exact .null ha
  | void _ hp => exact .void _ hp
  | any => exact .any _ nofun
  | null hb => exact .null hb
  | list | array | map | function => exact .null rfl
  | number hm => rw [isReference_of_rank? hm] at ha; cases ha

theorem of_rank? {m n : Nat} (h : Below p b c) (ha : a.rank? = some m) (hb : b.rank? = some n)
    (hle : m ≤ n) : Below p a c := by
  cases h with
  | refl => exact .number ha hb hle
  | void _ hp => exact .void _ hp
  | any => exact .any _ (by rintro rfl; cases ha)
  | number hb' hc hle' =>
    rw [hb] at hb'
    cases hb'
    exact .number ha hc (Nat.le_trans hle hle')
  | null | list | array | map | function => cases hb

theorem trans (hab : Below p a b) (hbc : Below p b c) : Below p a c := by
  induction hab generalizing c with
  | refl => exact hbc
  | void _ hp =>
    cases hbc with
    | refl | void => exact .void _ hp
    | any _ hv => rw [hv rfl] at hp; cases hp
    | number hm => cases hm
  | any _ hv =>
    cases hbc with
    | refl | any => exact .any _ hv
    | void _ hp => exact .void _ hp
    | number hm => cases hm
  | null hb => exact hbc.of_isReference hb
  | number hm hn hle => exact hbc.of_rank? hm hn hle
  | list hab ih | array hab ih | map hab ih | function hab ih =>
    -- above a container are containers of its kind, and what is on top
    cases hbc with
    | refl => constructor; exact hab
    | void _ hp => exact .void _ hp
    | any => exact .any _ nofun
    | number hm => cases hm
    | _ hbc => constructor; exact ih hbc

theorem antisymm (hab : Below p a b) (hba : Below p b a) : a = b := by
  induction hab with
  | refl => rfl
  | void _ hp =>
    cases hba with
    | refl | void => rfl
    | any _ hv => rw [hv rfl] at hp; cases hp
    | number hm => cases hm
  | any _ hv =>
    cases hba with
    | refl | any => rfl
    | void _ hp => rw [hv rfl] at hp; cases hp
    | number hm => cases hm
  | null hb =>
    cases hba with
    | refl | null => rfl
    | number hm hn => cases hn
  | list _ ih | array _ ih | map _ ih | function _ ih =>
    cases hba with
    | refl => rfl
    | number hm => cases hm
    | _ hba => rw [ih hba]
  | number hm hn hle =>
    cases hba with
    | refl => rfl
    | void | any | list | array | map | function => cases hm
    | null => cases hn
    | number hn' hm' hle' =>
      rw [hm] at hm'
      rw [hn] at hn'
      cases hm'
      cases hn'
      exact eq_of_rank? (Nat.le_antisymm hle hle' ▸ hm) hn

theorem not_of_apart (hab : a ≠ b) (hv : b ≠ .void) (hany : b ≠ .any) (hnull : a ≠ .null)
    (hkind : ∀ f ∈ wrappers, ∀ x y, a = f x → b ≠ f y)
    (hrank : ∀ m n, a.rank? = some m → b.rank? ≠ some n) : ¬Below p a b := by
  intro h
  cases h with
  | refl => exact hab rfl
  | void => exact hv rfl
  | any => exact hany rfl
  | null => exact hnull rfl
  | list | array | map | function => exact hkind _ (by simp [wrappers]) _ _ rfl rfl
  | number hm hn => exact hrank _ _ hm hn

/-- Above two types that are neither comparable nor containers of one kind there is only `any`, and what is
above `any`. -/
theorem any_of_apart (hac : Below p a c) (hbc : Below p b c) (hab : ¬Below p a b)
    (hba : ¬Below p b a)
    (hkind : ∀ f ∈ wrappers, ∀ x y, a = f x → b ≠ f y) : Below p .any c := by
  cases hac with
  | refl => exact absurd hbc hba
  | void _ hp => exact .void _ hp
  | any => exact .refl _
  | null hc =>
    cases hbc with
    | void _ hp => exact .void _ hp
    | any => exact .refl _
    | refl => exact absurd (.null hc) hab
    | null => exact absurd (.refl _) hab
    | number _ hn => rw [isReference_of_rank? hn] at hc; cases hc
    | list | array | map | function => exact absurd (.null rfl) hab
  | number hm hn hle =>
    cases hbc with
    | refl => exact absurd (.number hm hn hle) hab
    | void _ hp => exact .void _ hp
    | any => exact .refl _
    | number hm' hn' hle' =>
      rcases Nat.le_total _ _ with hmm | hmm
      · exact absurd (.number hm hm' hmm) hab
      · exact absurd (.number hm' hm hmm) hba
    | null hc => rw [isReference_of_rank? hn] at hc; cases hc
    | list | array | map | function => cases hn
  | list hac | array hac | map hac | function hac =>
    cases hbc with
    | refl => exact absurd (by constructor; exact hac) hab
    | null => exact absurd (.null rfl) hba
    | number _ hn => cases hn
    | _ => exact absurd rfl (hkind _ (by simp [wrappers]) _ _ rfl)

end Below

theorem contains_self (t : Ty) : t.contains t = true := by
  unfold contains
  rw [if_pos rfl]

theorem isReference_contains {t : Ty} (h : t.isReference = true) : t.contains .null = true := by
  unfold contains
  split
  · rfl
  · cases t <;> first | rfl | cases h

theorem number_contains {a b : Ty} {m n : Nat} (ha : a.rank? = some m) (hb : b.rank? = some n)
    (h : n ≤ m) : a.contains b = true := by
  unfold contains
  split
  · rfl
  · cases a <;> cases ha <;> cases b <;> cases hb <;> exact decide_eq_true h

theorem contains_inside {f : Ty → Ty} (hf : f ∈ wrappers) (a b : Ty) :
    (f a).contains (f b) = a.contains b := by
  by_cases hab : a = b
  · rw [hab, contains_self, contains_self]
  · simp only [wrappers, List.mem_cons, List.not_mem_nil, or_false] at hf
    rcases hf with rfl | rfl | rfl | rfl <;> rw [contains, if_neg (by simpa using hab)]

/-- Containment is the order with `void` under `any` alone. -/
theorem contains_iff {a b : Ty} : a.contains b = true ↔ Below false b a := by
  constructor
  · intro h
    fun_induction contains a b with
    | case1 a => exact .refl a
    | case2 => exact .any _ fun _ => rfl
    | case3 => exact .null h
    | case4 _ _ _ ih => exact .list (ih h)
    | case5 _ _ _ ih => exact .array (ih h)
    | case6 _ _ _ ih => exact .map (ih h)
    | case7 _ _ _ ih => exact .function (ih h)
    | case8 a b _ _ _ _ _ _ m n hn hm => exact .number hn hm (of_decide_eq_true h)
    | case9 => cases h
  · intro h
    induction h with
    | refl => exact contains_self _
    | void _ hp => cases hp
    | any => simp [contains]
    | null h => exact isReference_contains h
    | list _ ih => exact (contains_inside (by simp [wrappers]) _ _).trans ih
    | array _ ih => exact (contains_inside (by simp [wrappers]) _ _).trans ih
    | map _ ih => exact (contains_inside (by simp [wrappers]) _ _).trans ih
    | function _ ih => exact (contains_inside (by simp [wrappers]) _ _).trans ih
    | number hm hn hle => exact number_contains hn hm hle

def hasVoid : Ty → Bool
  | .void => true
  | .list t | .array t | .map t | .function t => t.hasVoid
  | _ => false

/-- True if the join with a type makes `void` of a part of another one that was not. -/
def voids : Ty → Ty → Bool
  | .void, t => decide (t ≠ .void)
  | .list b, .list a | .array b, .array a | .map b, .map a | .function b, .function a => b.voids a
  | _, _ => false

theorem voids_eq_false {a b : Ty} (h : b.hasVoid = false) : b.voids a = false := by
  fun_induction voids b a with
  | case1 => cases h
  | case2 _ _ ih | case3 _ _ ih | case4 _ _ ih | case5 _ _ ih => exact ih h
  | case6 => rfl

theorem union_self (t : Ty) : t.union t = t := by
  unfold union
  rw [if_pos rfl]

theorem union_inside {f : Ty → Ty} (hf : f ∈ wrappers) (a b : Ty) :
    (f a).union (f b) = f (a.union b) := by
  by_cases hab : a = b
  · rw [hab, union_self, union_self]
  · simp only [wrappers, List.mem_cons, List.not_mem_nil, or_false] at hf
    rcases hf with rfl | rfl | rfl | rfl <;> rw [union, if_neg (by simpa using hab)]

/-- A join is above each of its sides, unless it makes `void` of a part of that side. -/
theorem below_union {p : Bool} (a b : Ty) :
    (p = true ∨ b.voids a = false → Below p a (a.union b)) ∧
      (p = true ∨ a.voids b = false → Below p b (a.union b)) := by
  have top {t : Ty} (ht : t ≠ .void) (h : p = true ∨ Ty.void.voids t = false) :
      Below p t .void := by
    refine .void t (h.resolve_right fun hv => ?_)
    rw [voids, decide_eq_false_iff_not] at hv
    exact hv ht
  fun_induction union a b with
  | case1 => exact ⟨fun _ => .refl _, fun _ => .refl _⟩
  | case2 b hb => exact ⟨fun _ => .refl _, top (Ne.symm hb)⟩
  | case3 a ha => exact ⟨top ha, fun _ => .refl _⟩
  | case4 b hb => exact ⟨fun _ => .refl _, fun _ => .any _ fun h => absurd h hb⟩
  | case5 a ha => exact ⟨fun _ => .any _ fun h => absurd h ha, fun _ => .refl _⟩
  | case6 b _ _ href => exact ⟨fun _ => .null href, fun _ => .refl _⟩
  | case7 b hb => exact ⟨fun _ => .any _ nofun, fun _ => .any _ fun h => absurd h hb⟩
  | case8 a _ _ _ href => exact ⟨fun _ => .refl _, fun _ => .null href⟩
  | case9 a ha => exact ⟨fun _ => .any _ fun h => absurd h ha, fun _ => .any _ nofun⟩
  | case10 a b _ ih => exact ⟨fun h => .list (ih.1 h), fun h => .list (ih.2 h)⟩
  | case11 a b _ ih => exact ⟨fun h => .array (ih.1 h), fun h => .array (ih.2 h)⟩
  | case12 a b _ ih => exact ⟨fun h => .map (ih.1 h), fun h => .map (ih.2 h)⟩
  | case13 a b _ ih => exact ⟨fun h => .function (ih.1 h), fun h => .function (ih.2 h)⟩
  | case14 a b _ _ _ _ _ _ _ _ _ _ m n hn hm hle =>
    exact ⟨fun _ => .refl _, fun _ => .number hn hm hle⟩
  | case15 a b _ _ _ _ _ _ _ _ _ _ m n hn hm hle =>
    exact ⟨fun _ => .number hm hn (Nat.le_of_not_le hle), fun _ => .refl _⟩
  | case16 a b ha hb =>
    exact ⟨fun _ => .any _ fun h => absurd h ha, fun _ => .any _ fun h => absurd h hb⟩

/-- What is above both sides of a join is above the join. -/
theorem union_below {p : Bool} {a b c : Ty} (ha : Below p a c) (hb : Below p b c) :
    Below p (a.union b) c := by
  have null_apart {t : Ty} (hv : t ≠ .void) (hany : t ≠ .any) (ht : t.isReference ≠ true) :
      ¬Below p .null t ∧ ¬Below p t .null := by
    constructor <;> intro h <;> cases h <;> simp_all [isReference, rank?]
  fun_induction union a b generalizing c with
  | case1 | case2 | case4 | case8 | case14 => exact ha
  | case3 | case5 | case6 | case15 => exact hb
  | case7 b hv hany href =>
    obtain ⟨hnb, hbn⟩ := null_apart hv hany href
    exact ha.any_of_apart hb hnb hbn (by simp [wrappers])
  | case9 a hv hany _ href =>
    obtain ⟨hna, han⟩ := null_apart hv hany href
    exact ha.any_of_apart hb han hna (by simp [wrappers])
  | case10 a b _ ih | case11 a b _ ih | case12 a b _ ih | case13 a b _ ih =>
    cases ha with
    | refl =>
      cases hb with
      | refl => constructor; exact ih (.refl _) (.refl _)
      | number hm => cases hm
      | _ hb => constructor; exact ih (.refl _) hb
    | void _ hp => exact .void _ hp
    | any => exact .any _ nofun
    | number hm => cases hm
    | _ ha =>
      cases hb with
      | refl => constructor; exact ih ha (.refl _)
      | number hm => cases hm
      | _ hb => constructor; exact ih ha hb
  | case16 a b hav hbv haa hba han hbn hlist harray hmap hfunction hrank hab =>
    -- the sides have nothing in common, and the join is `any`
    have hkind : ∀ f ∈ wrappers, ∀ x y, a = f x → b ≠ f y := by
      intro f hf x y hx hy
      simp only [wrappers, List.mem_cons, List.not_mem_nil, or_false] at hf
      rcases hf with rfl | rfl | rfl | rfl
      · exact hlist x y hx hy
      · exact harray x y hx hy
      · exact hmap x y hx hy
      · exact hfunction x y hx hy
    refine ha.any_of_apart hb ?_ ?_ hkind
    · exact Below.not_of_apart hab hbv hba han hkind hrank
    · exact Below.not_of_apart (Ne.symm hab) hav haa hbn (fun f hf x y hx hy => hkind f hf y x hy hx)
        fun m n hm hn => hrank n m hn hm

-- For containment a join is a least upper bound only where `void` does not occur, so the laws for all types
-- are read off the other order.
theorem union_comm (a b : Ty) : a.union b = b.union a := by
  have le (a b : Ty) : Below true (a.union b) (b.union a) :=
    union_below ((below_union b a).2 (.inl rfl)) ((below_union b a).1 (.inl rfl))
  exact (le a b).antisymm (le b a)

theorem union_assoc (a b c : Ty) : (a.union b).union c = a.union (b.union c) := by
  have left (a b : Ty) : Below true a (a.union b) := (below_union a b).1 (.inl rfl)
  have right (a b : Ty) : Below true b (a.union b) := (below_union a b).2 (.inl rfl)
  apply Below.antisymm (p := true)
  · refine union_below (union_below (left _ _) ?_) ?_
    · exact (left b c).trans (right _ _)
    · exact (right b c).trans (right _ _)
  · refine union_below ?_ (union_below ?_ (right _ _))
    · exact (left a b).trans (left _ _)
    · exact (right a b).trans (left _ _)

theorem hasVoid_union {a b : Ty} (ha : a.hasVoid = false) (hb : b.hasVoid = false) :
    (a.union b).hasVoid = false := by
  fun_induction union a b with
  | case2 => cases ha
  | case3 => cases hb
  | case10 _ _ _ ih | case11 _ _ _ ih | case12 _ _ _ ih | case13 _ _ _ ih => exact ih ha hb
  | case1 | case8 | case14 => exact ha
  | case6 | case15 => exact hb
  | case4 | case5 | case7 | case9 | case16 => rfl

/-- Containment is a partial order, joins commute, associate and are idempotent, and where `void` does not
occur the join of two types is the least type that contains both. -/
theorem contains_union_lattice :
    (∀ a : Ty, a.contains a = true) ∧
    (∀ a b : Ty, a.contains b = true → b.contains a = true → a = b) ∧
    (∀ a b c : Ty, a.contains b = true → b.contains c = true → a.contains c = true) ∧
    (∀ a b : Ty, a.union b = b.union a) ∧
    (∀ a b c : Ty, (a.union b).union c = a.union (b.union c)) ∧
    (∀ a : Ty, a.union a = a) ∧
    ∀ a b : Ty, a.hasVoid = false → b.hasVoid = false →
      (a.union b).hasVoid = false ∧
      (a.union b).contains a = true ∧ (a.union b).contains b = true ∧
      ∀ c : Ty, c.contains a = true → c.contains b = true → c.contains (a.union b) = true := by
  simp only [contains_iff]
  refine ⟨.refl, fun a b hba hab => hab.antisymm hba, fun a b c hba hcb => hcb.trans hba, union_comm,
    union_assoc, union_self, fun a b ha hb => ⟨hasVoid_union ha hb, ?_, ?_, ?_⟩⟩
  · exact (below_union a b).1 (.inr (voids_eq_false hb))
  · exact (below_union a b).2 (.inr (voids_eq_false ha))
  · exact fun c hac hbc => union_below hac hbc

/-- The least type that contains the maps to integers and to strings, both in arrays, is the type of arrays
of maps to any values. -/
theorem contains_union_lattice_maps :
    let a : Ty := .array (.map .int)
    let b : Ty := .array (.map .str)
    a.union b = .array (.map .any) ∧ (a.union b).contains a = true ∧ (a.union b).contains b = true ∧
      (Ty.array .any).contains (a.union b) = true := by
  intro a b
  obtain ⟨-, ha, hb, hleast⟩ := contains_union_lattice.2.2.2.2.2.2 a b rfl rfl
  exact ⟨rfl, ha, hb, hleast (.array .any) rfl rfl⟩

end ExprCore.Ty
