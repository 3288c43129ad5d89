import ExprCore.Proofs.OperatorTyping

/-!
Locations: a cell, or a position or key of a container. A store is read and written location by location;
what is written at one is found there, and at every other stands what stood there before. The keys of a
container name its locations.
-/

namespace ExprCore
set_option autoImplicit false

theorem lt_size_of_getD {α : Type} {a : Array α} {r : Ref} {d : α} (h : a[r]?.getD d ≠ d) :
    r < a.size := by
  apply Decidable.byContradiction
  intro hr
  apply h
  rw [Array.getElem?_eq_none (Nat.le_of_not_lt hr), Option.getD_none]

inductive Location where
  | cell (r : Ref)
  /-- A position of a list or an array. -/
  | item (r : Ref) (i : Nat)
  | char (r : Ref) (i : Nat)
  | entry (r : Ref) (key : String)
  deriving DecidableEq

namespace Store

def look (s : Store) : Location → Value
  | .cell r => s.cell r
  | .item r i => (s.items r)[i]?.getD .null
  | .char r i => ((s.chars r)[i]?.map .char).getD .null
  | .entry r key => (s.entries r).get key

/-- The store with a value at a location. Where there are characters it has to be one. -/
def put (s : Store) (v : Value) : Location → Store
  | .cell r => { s with cells := s.cells.setIfInBounds r v }
  | .item r i => { s with sequences := s.sequences.setIfInBounds r ((s.items r).set i v) }
  | .char r i =>
    match v with
    | .char c => { s with buffers := s.buffers.setIfInBounds r ((s.chars r).set i c) }
    | _ => s
  | .entry r key => { s with maps := s.maps.setIfInBounds r ((s.entries r).insert key v) }

/-- A location that a value can be put at. -/
def Takes (s : Store) (v : Value) : Location → Prop
  | .cell r => r < s.cells.size
  | .item r i => i < (s.items r).length
  | .char r i => i < (s.chars r).length ∧ ∃ c, v = .char c
  | .entry r _ => r < s.maps.size

variable {s : Store} {v : Value} {l l' : Location}

theorem lt_size_of_items {r : Ref} {i : Nat} (h : i < (s.items r).length) : r < s.sequences.size := by
  apply lt_size_of_getD (d := [])
  intro he
  rw [items, he] at h
  exact Nat.not_lt_zero _ h

theorem lt_size_of_chars {r : Ref} {i : Nat} (h : i < (s.chars r).length) : r < s.buffers.size := by
  apply lt_size_of_getD (d := [])
  intro he
  rw [chars, he] at h
  exact Nat.not_lt_zero _ h

theorem look_put_self (h : s.Takes v l) : (s.put v l).look l = v := by
  cases l with
  | cell r =>
    show Store.cell _ r = v
    rw [put, cell, getD_setIfInBounds, if_pos ⟨rfl, h⟩]
  | item r i =>
    show (Store.items _ r)[i]?.getD .null = v
    rw [put, items_set, if_pos ⟨rfl, lt_size_of_items h⟩, List.getElem?_set_self h]
    rfl
  | char r i =>
    obtain ⟨hi, c, rfl⟩ := h
    show ((Store.chars _ r)[i]?.map Value.char).getD .null = _
    rw [put, chars, getD_setIfInBounds, if_pos ⟨rfl, lt_size_of_chars hi⟩, List.getElem?_set_self hi]
    rfl
  | entry r key =>
    show (Store.entries _ r).get key = v
    rw [put, entries_set, if_pos ⟨rfl, h⟩, Entries.get_insert_self]

theorem cell_put (s : Store) (v : Value) (l : Location) (r : Ref) :
    (s.put v l).cell r = s.cell r ∨ l = .cell r ∧ (s.put v l).cell r = v := by
  cases l with
  | cell q =>
    have h : (s.put v (.cell q)).cell r = if q = r ∧ q < s.cells.size then v else s.cell r :=
      getD_setIfInBounds s.cells q r v .void
    split at h
    · rename_i hq
      exact .inr ⟨congrArg Location.cell hq.1, h⟩
    · exact .inl h
  | char q i => cases v <;> exact .inl rfl
  | _ => exact .inl rfl

theorem items_put (s : Store) (v : Value) (l : Location) (r : Ref) :
    (s.put v l).items r = s.items r ∨ ∃ i, l = .item r i ∧ (s.put v l).items r = (s.items r).set i v := by
  cases l with
  | item q i =>
    have h : (s.put v (.item q i)).items r = _ := s.items_set ((s.items q).set i v) q r
    split at h
    · rename_i hq
      obtain ⟨rfl, -⟩ := hq
      exact .inr ⟨i, rfl, h⟩
    · exact .inl h
  | char q i => cases v <;> exact .inl rfl
  | _ => exact .inl rfl

theorem chars_put (s : Store) (v : Value) (l : Location) (r : Ref) :
    (s.put v l).chars r = s.chars r ∨
      ∃ i c, l = .char r i ∧ (s.put v l).chars r = (s.chars r).set i c := by
  cases l with
  | char q i =>
    cases v with
    | char c =>
      have h : (s.put (.char c) (.char q i)).chars r = _ :=
        getD_setIfInBounds s.buffers q r ((s.chars q).set i c) []
      split at h
      · rename_i hq
        obtain ⟨rfl, -⟩ := hq
        exact .inr ⟨i, c, rfl, h⟩
      · exact .inl h
    | _ => exact .inl rfl
  | _ => exact .inl rfl

theorem entries_put (s : Store) (v : Value) (l : Location) (r : Ref) :
    (s.put v l).entries r = s.entries r ∨
      ∃ key, l = .entry r key ∧ (s.put v l).entries r = (s.entries r).insert key v := by
  cases l with
  | entry q key =>
    have h : (s.put v (.entry q key)).entries r = _ := s.entries_set ((s.entries q).insert key v) q r
    split at h
    · rename_i hq
      obtain ⟨rfl, -⟩ := hq
      exact .inr ⟨key, rfl, h⟩
    · exact .inl h
  | char q i => cases v <;> exact .inl rfl
  | _ => exact .inl rfl

theorem length_items_put (s : Store) (v : Value) (l : Location) (r : Ref) :
    ((s.put v l).items r).length = (s.items r).length := by
  rcases s.items_put v l r with h | ⟨i, -, h⟩
  · rw [h]
  · rw [h, List.length_set]

theorem length_chars_put (s : Store) (v : Value) (l : Location) (r : Ref) :
    ((s.put v l).chars r).length = (s.chars r).length := by
  rcases s.chars_put v l r with h | ⟨i, c, -, h⟩
  · rw [h]
  · rw [h, List.length_set]

theorem look_put_of_ne (h : l' ≠ l) : (s.put v l).look l' = s.look l' := by
  cases l' with
  | cell r =>
    rcases s.cell_put v l r with hr | ⟨rfl, -⟩
    · exact hr
    · exact absurd rfl h
  | item r i =>
    rcases s.items_put v l r with hr | ⟨j, rfl, hr⟩
    · simp only [look, hr]
    · have hji : j ≠ i := fun hji => h (hji ▸ rfl)
      simp only [look, hr, List.getElem?_set_ne hji]
  | char r i =>
    rcases s.chars_put v l r with hr | ⟨j, c, rfl, hr⟩
    · simp only [look, hr]
    · have hji : j ≠ i := fun hji => h (hji ▸ rfl)
      simp only [look, hr, List.getElem?_set_ne hji]
  | entry r key =>
    rcases s.entries_put v l r with hr | ⟨k, rfl, hr⟩
    · simp only [look, hr]
    · have hk : key ≠ k := fun hk => h (hk ▸ rfl)
      simp only [look, hr, Entries.get_insert_of_ne hk]

end Store

namespace Indexable

/-- The type of the elements that a container takes. -/
def elementType : Indexable → Ty
  | .text _ | .buffer _ => .char
  | .array elem _ => elem
  | .list _ | .map _ => .any

variable {c : Indexable} {key v w : Value} {s s' : Store} {l : Location}

/-- The location that a key names, if it names one that can be written. -/
def location? (s : Store) (c : Indexable) (key : Value) : Option Location :=
  match c with
  | .text _ => none
  | .buffer r => (position key (s.chars r).length).toOption.map (.char r)
  | .list r | .array _ r => (position key (s.items r).length).toOption.map (.item r)
  | .map r => (mapKey key).toOption.map (.entry r)

theorem position_lt {n i : Nat} (h : position key n = .ok i) : i < n := by
  unfold position at h
  cases hk : key.toInt with
  | error e => rw [hk] at h; cases h
  | ok k =>
    rw [hk] at h
    simp only [bind, Except.bind] at h
    split at h
    · cases h
      omega
    · cases h

theorem position_of_toOption {n : Nat} {make : Nat → Location}
    (h : (position key n).toOption.map make = some l) : ∃ i, position key n = .ok i ∧ make i = l := by
  cases hi : position key n with
  | error e =>
    rw [hi] at h
    cases h
  | ok i =>
    rw [hi] at h
    exact ⟨i, rfl, Option.some.inj h⟩

theorem element_of_position {α : Type} {items : List α} {i : Nat}
    (h : position key items.length = .ok i) : ∃ a, items[i]? = some a ∧ element items key = .ok a := by
  have hi := position_lt h
  refine ⟨items[i], List.getElem?_eq_getElem hi, ?_⟩
  rw [element, h]
  simp only [bind, Except.bind]
  rw [List.getElem?_eq_getElem hi]

theorem element_of_error {α : Type} {items : List α} {e : EvalError}
    (h : position key items.length = .error e) : element items key = .error e := by
  rw [element, h]
  rfl

theorem get_of_location (h : c.location? s key = some l) : c.get s key = .ok (s.look l) := by
  cases c with
  | text t => cases h
  | buffer r =>
    obtain ⟨i, hi, rfl⟩ := position_of_toOption h
    obtain ⟨ch, hch, he⟩ := element_of_position hi
    simp only [get, he, Store.look, hch]
    rfl
  | list r | array elem r =>
    obtain ⟨i, hi, rfl⟩ := position_of_toOption h
    obtain ⟨item, hitem, he⟩ := element_of_position hi
    simp only [get, he, Store.look, hitem]
    rfl
  | map r =>
    cases hk : mapKey key with
    | error e => simp [location?, hk, Except.toOption] at h
    | ok k =>
      simp only [location?, hk, Except.toOption, Option.map_some, Option.some.injEq] at h
      subst h
      simp only [get, hk]
      rfl

theorem location?_put (s : Store) (v : Value) (l : Location) (c : Indexable) (key : Value) :
    c.location? (s.put v l) key = c.location? s key := by
  cases c with
  | buffer r => simp only [location?, s.length_chars_put v l r]
  | list r | array elem r => simp only [location?, s.length_items_put v l r]
  | text | map => rfl

/-- A key that names no location is refused, or read from text, whatever the contents are. -/
theorem get_put_of_none (h : c.location? s key = none) (v : Value) (l : Location) :
    c.get (s.put v l) key = c.get s key := by
  have hpos {n : Nat} {make : Nat → Location} (h : (position key n).toOption.map make = none) :
      ∃ e, position key n = .error e := by
    cases he : position key n with
    | error e => exact ⟨e, rfl⟩
    | ok i =>
      rw [he] at h
      cases h
  cases c with
  | text t => rfl
  | buffer r =>
    obtain ⟨e, he⟩ := hpos h
    rw [get, get, element_of_error he, element_of_error (by rw [s.length_chars_put, he])]
  | list r | array elem r =>
    obtain ⟨e, he⟩ := hpos h
    rw [get, get, element_of_error he, element_of_error (by rw [s.length_items_put, he])]
  | map r =>
    cases hk : mapKey key with
    | error e =>
      simp only [get, hk]
      rfl
    | ok k => simp [location?, hk, Except.toOption] at h

theorem get_put_of_ne (h : c.location? s key ≠ some l) (v : Value) :
    c.get (s.put v l) key = c.get s key := by
  cases hl : c.location? s key with
  | none => exact get_put_of_none hl v l
  | some l' =>
    have hne : l' ≠ l := fun hne => h (hne ▸ hl)
    rw [get_of_location hl, get_of_location ((location?_put s v l c key).trans hl), Store.look_put_of_ne hne]

/-- A container that is there, so that new keys can be put into it. -/
def Live (s : Store) : Indexable → Prop
  | .map r => r < s.maps.size
  | _ => True

theorem eq_char_of_cast (h : Ty.char.cast v = .ok w) : ∃ ch, w = .char ch := by
  have hw : w.ty = .char := Ty.Conforms.ty_eq (Ty.conforms_of_cast h) rfl
  cases w with
  | char ch => exact ⟨ch, rfl⟩
  | _ => cases hw

theorem takes_of_location (hc : c.Live s) (hl : c.location? s key = some l)
    (hw : c.elementType.cast v = .ok w) : s.Takes w l := by
  cases c with
  | text t => cases hl
  | buffer r =>
    obtain ⟨i, hi, rfl⟩ := position_of_toOption hl
    exact ⟨position_lt hi, eq_char_of_cast hw⟩
  | list r | array elem r =>
    obtain ⟨i, hi, rfl⟩ := position_of_toOption hl
    exact position_lt hi
  | map r =>
    obtain ⟨k, -, rfl⟩ := Option.map_eq_some_iff.mp hl
    exact hc

theorem set_by_location {α : Type} {found : Except EvalError α} {make : α → Location} {write : α → Run Value}
    (hw : c.elementType.cast v = .ok w) (hl : c.location? s key = found.toOption.map make)
    (hset : c.set key v s = (Run.ofExcept found >>= write) s)
    (hwrite : ∀ a, found = .ok a → write a s = .ok w (s.put w (make a))) :
    (∃ l w, c.location? s key = some l ∧ c.elementType.cast v = .ok w ∧ c.set key v s = .ok w (s.put w l)) ∨
      ((c.location? s key = none ∨ ∃ e, c.elementType.cast v = .error e) ∧
        ∃ halt, c.set key v s = .error halt s) := by
  cases found with
  | error e => exact .inr ⟨.inl hl, .error e, hset⟩
  | ok a => exact .inl ⟨make a, w, hl, hw, hset.trans (hwrite a rfl)⟩

/-- An element is set by putting the value, cast to the type of the elements, at the location that the key
names; if there is no such location or the value does not cast, nothing is done. -/
theorem set_cases (c : Indexable) (key v : Value) (s : Store) :
    (∃ l w, c.location? s key = some l ∧ c.elementType.cast v = .ok w ∧ c.set key v s = .ok w (s.put w l)) ∨
      ((c.location? s key = none ∨ ∃ e, c.elementType.cast v = .error e) ∧
        ∃ halt, c.set key v s = .error halt s) := by
  cases c with
  | text t => exact .inr ⟨.inl rfl, _, rfl⟩
  | buffer r =>
    cases hv : Ty.char.cast v with
    | error e =>
      refine .inr ⟨.inr ⟨e, hv⟩, .error e, ?_⟩
      rw [set, hv]
      rfl
    | ok w =>
      obtain ⟨ch, rfl⟩ := eq_char_of_cast hv
      have hset : (Indexable.buffer r).set key v s = (Run.ofExcept (position key (s.chars r).length) >>=
          fun i => Run.writeBuffer r ((s.chars r).set i ch) >>= fun _ => pure (.char ch)) s := by
        rw [set, hv]
        rfl
      exact set_by_location hv rfl hset fun _ _ => rfl
  | list r =>
    have hset : (Indexable.list r).set key v s = (Run.ofExcept (position key (s.items r).length) >>=
        fun i => Run.writeSequence r ((s.items r).set i v) >>= fun _ => pure v) s := rfl
    exact set_by_location rfl rfl hset fun _ _ => rfl
  | array elem r =>
    have hset : (Indexable.array elem r).set key v s =
        (Run.ofExcept (position key (s.items r).length) >>= fun i => storeInArray elem r i v) s := rfl
    cases hv : elem.cast v with
    | error e =>
      have hstore (i : Nat) : storeInArray elem r i v s = .error (.error e) s := by
        rw [storeInArray, hv]
        rfl
      refine .inr ⟨.inr ⟨e, hv⟩, ?_⟩
      cases hi : position key (s.items r).length with
      | error e => exact ⟨.error e, hset.trans (by rw [hi]; rfl)⟩
      | ok i => exact ⟨.error e, hset.trans (by rw [hi]; exact hstore i)⟩
    | ok w =>
      refine set_by_location hv rfl hset fun i hi => ?_
      rw [storeInArray, hv]
      exact congrFun (if_pos (position_lt hi)) s
  | map r =>
    have hset : (Indexable.map r).set key v s = (Run.ofExcept (mapKey key) >>= fun k =>
        Run.writeMap r ((s.entries r).insert k v) >>= fun _ => pure v) s := by
      rw [set]
      cases mapKey key <;> rfl
    exact set_by_location rfl rfl hset fun _ _ => rfl

end Indexable

end ExprCore
