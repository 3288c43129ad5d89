import ExprCore.Host.Classes
import ExprCore.Proofs.Growth.Stores

/-!
Places as storage. What is written to a place is found at the location that the place names, by whatever
way that is reached, and nowhere else does anything change.
-/

namespace ExprCore
set_option autoImplicit false

theorem Run.ofExcept_inj {α : Type} {x y : Except EvalError α} {s : Store} :
    Run.ofExcept x s = Run.ofExcept y s ↔ x = y := by
  constructor
  · intro h
    cases x <;> cases y <;> cases h <;> rfl
  · intro h
    rw [h]

namespace Place

/-- True for the slots that refuse to be assigned. -/
def isFinal : Place → Bool
  | .cell _ _ _ final => final
  | _ => false

end Place

namespace Location

def isNew (s : Store) (c : Indexable) : Location → Bool
  | .entry r key =>
    match c with
    | .map q => decide (q = r ∧ key ∉ (s.entries r).map Prod.fst)
    | _ => false
  | _ => false

end Location

namespace Store

variable {s : Store} {v : Value} {l : Location}

theorem length_put (hs : s.Ordered) (hl : s.Takes v l) (c : Indexable) :
    c.length (s.put v l) = c.length s + if l.isNew s c then 1 else 0 := by
  cases c with
  | text t => cases l <;> rfl
  | buffer r =>
    have hr := s.length_chars_put v l r
    cases l <;> exact hr
  | list r | array elem r =>
    have hr := s.length_items_put v l r
    cases l <;> exact hr
  | map q =>
    simp only [Indexable.length]
    cases l with
    | entry r key =>
      have hq : (s.put v (.entry r key)).entries q = _ := s.entries_set ((s.entries r).insert key v) r q
      rw [hq]
      split
      · rename_i h
        obtain ⟨rfl, -⟩ := h
        rw [(hs.sorted r).length_insert]
        by_cases hkey : key ∈ (s.entries r).map Prod.fst <;> simp [Location.isNew, hkey]
      · rename_i h
        have hne : q ≠ r := fun hqr => h ⟨hqr.symm, hl⟩
        simp only [Location.isNew, hne, false_and, decide_false]
        rfl
    | char r i => cases v <;> rfl
    | _ => rfl

end Store

namespace Machine

variable {m : Machine} {p : Place} {v w : Value} {s s' : Store} {l : Location}

theorem read_put_of_ne (hp : p.isHost = false) (h : p.location? s ≠ some l) (x : Except EvalError Value) :
    m.read p (s.put v l) = Run.ofExcept x (s.put v l) ↔ m.read p s = Run.ofExcept x s := by
  cases p with
  | cell r =>
    have hne : Location.cell r ≠ l := fun hl => h (congrArg some hl)
    have hcell : (s.put v l).cell r = s.cell r := Store.look_put_of_ne hne
    show Run.ofExcept (.ok ((s.put v l).cell r)) _ = _ ↔ Run.ofExcept (.ok (s.cell r)) _ = _
    rw [Run.ofExcept_inj, Run.ofExcept_inj, hcell]
  | element c key =>
    have hget := Indexable.get_put_of_ne h v
    show Run.ofExcept (c.get (s.put v l) key) _ = _ ↔ Run.ofExcept (c.get s key) _ = _
    rw [Run.ofExcept_inj, Run.ofExcept_inj, hget]
  | hostField | staticField => cases hp

theorem writeAs_cases (m : Machine) (mode : AssignMode) (p : Place) (v : Value) :
    ((mode = .assign ∧ p.isFinal = true) ∧
        ∃ name, m.writeAs mode p v = Run.fail (.immutableBinding name)) ∨
      ¬(mode = .assign ∧ p.isFinal = true) ∧ m.writeAs mode p v = m.store p v := by
  cases mode with
  | declare => exact .inr ⟨by simp, rfl⟩
  | assign =>
    cases p with
    | cell r name t final =>
      cases final with
      | true => exact .inl ⟨⟨rfl, rfl⟩, name, rfl⟩
      | false => exact .inr ⟨by simp [Place.isFinal], rfl⟩
    | _ => exact .inr ⟨by simp [Place.isFinal], rfl⟩

/-- What has become of a store in which a value was put at a location. -/
structure Stored (m : Machine) (l : Location) (w : Value) (s s' : Store) : Prop where
  /-- The value is read from every place that names the location. -/
  there : ∀ p, p.location? s = some l → m.read p s' = .ok w s'
  /-- From every other place is read what was read from it before, a value or an error. -/
  elsewhere : ∀ p, p.isHost = false → p.location? s ≠ some l → ∀ x : Except EvalError Value,
    m.read p s' = Run.ofExcept x s' ↔ m.read p s = Run.ofExcept x s
  /-- Only the map that a key is new to has one entry more. -/
  length : ∀ c : Indexable, c.length s' = c.length s + if l.isNew s c then 1 else 0
  /-- Nothing but contents has changed. -/
  rest : s' = { s with
    cells := s'.cells, sequences := s'.sequences, buffers := s'.buffers, maps := s'.maps }
  sizes : s'.cells.size = s.cells.size ∧ s'.sequences.size = s.sequences.size ∧
    s'.buffers.size = s.buffers.size ∧ s'.maps.size = s.maps.size
  ordered : s'.Ordered

theorem stored_put (m : Machine) (hs : s.Ordered) (hl : s.Takes w l) : m.Stored l w s (s.put w l) where
  there p hp := by
    rw [read_of_location ((p.location?_put s w l).trans hp), Store.look_put_self hl]
  elsewhere p hp h x := read_put_of_ne hp h x
  length := Store.length_put hs hl
  rest := by
    cases l with
    | char r i => cases w <;> rfl
    | _ => rfl
  sizes := s.sizes_put w l
  ordered := hs.put w l

end Machine

/-- A place is storage. A value that casts to its type is taken, unless the place names no location or is a
final slot that is assigned, and the value is what is read from then on from every place that names the
location, while everything else reads as before; a write that fails changes nothing. -/
theorem place_stores {m : Machine} {p : Place} {s : Store} (hp : p.isHost = false) (hlive : p.Live s)
    (hs : s.Ordered) (mode : AssignMode) (v : Value) :
    ((∃ w s', m.writeAs mode p v s = .ok w s') ↔
      ¬(mode = .assign ∧ p.isFinal = true) ∧ (∃ l, p.location? s = some l) ∧ ∃ w, p.type.cast v = .ok w) ∧
    (∀ w s', m.writeAs mode p v s = .ok w s' →
      p.type.cast v = .ok w ∧ m.read p s' = .ok w s' ∧
        ∃ l, p.location? s = some l ∧ m.Stored l w s s') ∧
    ∀ halt s', m.writeAs mode p v s = .error halt s' → s' = s := by
  rcases m.writeAs_cases mode p v with ⟨hfinal, name, hw⟩ | ⟨hfinal, hw⟩
  · -- A final slot is not assigned.
    have hfail : m.writeAs mode p v s = .error (.error (.of (.immutableBinding name))) s := by
      rw [hw]
      rfl
    rw [hfail]
    refine ⟨⟨nofun, fun h => absurd hfinal h.1⟩, nofun, ?_⟩
    intro halt s' h
    cases h
    rfl
  · rw [hw]
    rcases m.store_cases hp v s with ⟨l, w, hl, hv, hstore⟩ | ⟨hnone, halt, hstore⟩
    · rw [hstore]
      refine ⟨⟨fun _ => ⟨hfinal, ⟨l, hl⟩, w, hv⟩, fun _ => ⟨w, s.put w l, rfl⟩⟩, ?_, nofun⟩
      intro w' s' h
      cases h
      have hstored := m.stored_put hs (Machine.takes_of_location hlive hl hv)
      exact ⟨hv, hstored.there p hl, l, hl, hstored⟩
    · rw [hstore]
      refine ⟨⟨nofun, ?_⟩, nofun, ?_⟩
      · rintro ⟨-, ⟨l, hl⟩, w, hv⟩
        rcases hnone with hnone | ⟨e, he⟩
        · cases hnone.symm.trans hl
        · cases he.symm.trans hv
      · intro halt' s' h
        cases h
        rfl

namespace Sample

def boxes : Store := { sequences := #[[.int 5, .int 6]], maps := #[[("b", .int 1)]] }

theorem ordered_boxes : boxes.Ordered := by
  intro entries he
  obtain rfl : entries = [("b", .int 1)] := by simpa [boxes] using he
  exact List.pairwise_singleton _ _

end Sample

open Sample in
/-- A list is put into itself, at a position that another key names too, and a map is given a key that it
did not have. -/
theorem place_stores_looped :
    let m := Machine.ofFuel (standardHost 0) 8
    (∃ s', m.writeAs .assign (.element (.list 0) (.char '\x01')) (.list 0) boxes = .ok (.list 0) s' ∧
      m.read (.element (.list 0) (.long 1)) s' = .ok (.list 0) s' ∧
      m.read (.element (.list 0) (.int 0)) s' = .ok (.int 5) s') ∧
    ∃ s', m.writeAs .assign (.element (.map 0) (.str "a")) .null boxes = .ok .null s' ∧
      (Indexable.map 0).length s' = 2 := by
  intro m
  constructor
  · obtain ⟨htaken, hstored, -⟩ := place_stores (m := m) (p := .element (.list 0) (.char '\x01')) rfl trivial
      ordered_boxes .assign (.list 0)
    obtain ⟨w, s', h⟩ := htaken.mpr ⟨by simp [Place.isFinal], ⟨.item 0 1, rfl⟩, .list 0, rfl⟩
    obtain ⟨hv, -, l, hl, hs'⟩ := hstored w s' h
    cases hv
    cases hl
    refine ⟨s', h, hs'.there (.element (.list 0) (.long 1)) rfl, ?_⟩
    exact (hs'.elsewhere (.element (.list 0) (.int 0)) rfl (by decide) (.ok (.int 5))).mpr rfl
  · obtain ⟨htaken, hstored, -⟩ := place_stores (m := m) (p := .element (.map 0) (.str "a")) rfl
      (show 0 < boxes.maps.size from Nat.zero_lt_one) ordered_boxes .assign .null
    obtain ⟨w, s', h⟩ := htaken.mpr ⟨by simp [Place.isFinal], ⟨.entry 0 "a", rfl⟩, .null, rfl⟩
    obtain ⟨hv, -, l, hl, hs'⟩ := hstored w s' h
    cases hv
    cases hl
    exact ⟨s', h, hs'.length (.map 0)⟩

end ExprCore
