import ExprCore.Proofs.PlaceAccess

/-!
Growth of stores. No address is taken back, and maps stay in order, each key once.
-/

namespace ExprCore
set_option autoImplicit false

namespace Entries

variable {key : String} {v : Value} {entries : Entries}

/-- Entries by rising keys, each key once. -/
def Sorted (entries : Entries) : Prop := entries.Pairwise fun a b => a.1 < b.1

theorem mem_insert {entry : String × Value} (h : entry ∈ entries.insert key v) :
    entry = (key, v) ∨ entry ∈ entries := by
  induction entries with
  | nil => exact .inl (List.mem_singleton.mp h)
  | cons first entries ih =>
    obtain ⟨k, w⟩ := first
    unfold insert at h
    split at h
    · rcases List.mem_cons.mp h with h | h
      · exact .inl h
      · exact .inr (List.mem_cons_of_mem _ h)
    · split at h
      · exact List.mem_cons.mp h
      · rcases List.mem_cons.mp h with h | h
        · exact .inr (h ▸ List.mem_cons_self)
        · exact (ih h).imp_right (List.mem_cons_of_mem _)

theorem lt_of_ne {a b : String} (hne : a ≠ b) (hlt : ¬b < a) : a < b := by
  apply String.not_le.mp
  intro hle
  exact hne (String.le_antisymm (String.not_lt.mp hlt) hle)

theorem Sorted.insert (h : entries.Sorted) (key : String) (v : Value) : (entries.insert key v).Sorted := by
  induction h with
  | nil => exact List.pairwise_singleton _ _
  | @cons first entries hfirst h ih =>
    obtain ⟨k, w⟩ := first
    unfold Entries.insert
    split
    · rename_i hk
      subst hk
      exact .cons hfirst h
    · rename_i hk
      split
      · rename_i hlt
        refine .cons ?_ (.cons hfirst h)
        intro entry he
        rcases List.mem_cons.mp he with rfl | he
        · exact hlt
        · exact String.lt_trans hlt (hfirst entry he)
      · rename_i hlt
        refine .cons ?_ ih
        intro entry he
        rcases mem_insert he with rfl | he
        · exact lt_of_ne hk hlt
        · exact hfirst entry he

theorem Sorted.insertAll (h : entries.Sorted) (more : List (String × Value)) :
    (entries.insertAll more).Sorted := by
  induction more generalizing entries with
  | nil => exact h
  | cons entry more ih => exact ih (h.insert entry.1 entry.2)

theorem Sorted.length_insert (h : entries.Sorted) (key : String) (v : Value) :
    (entries.insert key v).length = entries.length + if key ∈ entries.map Prod.fst then 0 else 1 := by
  induction h with
  | nil => rfl
  | @cons first entries hfirst h ih =>
    obtain ⟨k, w⟩ := first
    unfold Entries.insert
    split
    · rename_i hk
      simp [hk]
    · rename_i hk
      split
      · rename_i hlt
        have hnew : key ∉ ((k, w) :: entries).map Prod.fst := by
          intro hmem
          obtain ⟨entry, he, rfl⟩ := List.mem_map.mp hmem
          rcases List.mem_cons.mp he with rfl | he
          · exact hk rfl
          · exact String.lt_asymm hlt (hfirst entry he)
        rw [if_neg hnew]
        rfl
      · have hmem : key ∈ ((k, w) :: entries).map Prod.fst ↔ key ∈ entries.map Prod.fst := by
          simp [Ne.symm hk]
        rw [List.length_cons, ih, List.length_cons]
        simp only [hmem]
        omega

end Entries

namespace Store

def Ordered (s : Store) : Prop := ∀ entries ∈ s.maps, Entries.Sorted entries

structure Grows (s s' : Store) : Prop where
  cells : s.cells.size ≤ s'.cells.size
  sequences : s.sequences.size ≤ s'.sequences.size
  buffers : s.buffers.size ≤ s'.buffers.size
  maps : s.maps.size ≤ s'.maps.size
  functions : s.functions.toList <+: s'.functions.toList
  ordered : s.Ordered → s'.Ordered

variable {s s₁ s₂ : Store}

theorem Grows.refl (s : Store) : s.Grows s := ⟨le_rfl, le_rfl, le_rfl, le_rfl, List.prefix_refl _, id⟩

theorem Grows.trans (h : s.Grows s₁) (g : s₁.Grows s₂) : s.Grows s₂ where
  cells := h.cells.trans g.cells
  sequences := h.sequences.trans g.sequences
  buffers := h.buffers.trans g.buffers
  maps := h.maps.trans g.maps
  functions := h.functions.trans g.functions
  ordered := g.ordered ∘ h.ordered

theorem Ordered.sorted (h : s.Ordered) (r : Ref) : (s.entries r).Sorted := by
  unfold entries
  cases hr : s.maps[r]? with
  | none => exact .nil
  | some entries => exact h entries (Array.mem_of_getElem? hr)

theorem Ordered.put (hs : s.Ordered) (v : Value) (l : Location) : (s.put v l).Ordered := by
  cases l with
  | entry r key =>
    intro entries he
    rcases Array.mem_or_eq_of_mem_setIfInBounds he with he | rfl
    · exact hs entries he
    · exact (hs.sorted r).insert key v
  | char r i => cases v <;> exact hs
  | _ => exact hs

theorem sizes_put (s : Store) (v : Value) (l : Location) :
    (s.put v l).cells.size = s.cells.size ∧ (s.put v l).sequences.size = s.sequences.size ∧
      (s.put v l).buffers.size = s.buffers.size ∧ (s.put v l).maps.size = s.maps.size := by
  cases l with
  | char r i => cases v <;> simp [put]
  | _ => simp [put]

end Store

end ExprCore
