import ExprCore.Proofs.Locations

/-!
Reads and writes through places. A cell or an element is read without a change of the store; a write
stores the value cast to the type of the place, or fails and leaves the store as it was.
-/

namespace ExprCore
set_option autoImplicit false

namespace Run

variable {α β : Type} {x : Run α} {f : α → Run β} {s s' : Store}

structure Still (x : Run α) : Prop where
  ok : ∀ {s a s'}, x s = .ok a s' → s' = s
  error : ∀ {s h s'}, x s = .error h s' → s' = s

/-- A computation that leaves the store as it was if it fails. -/
def Atomic (x : Run α) : Prop := ∀ {s h s'}, x s = .error h s' → s' = s

theorem Still.atomic (h : Still x) : Atomic x := h.error

theorem error_of_bind {h : Halt} (he : (x >>= f) s = .error h s') :
    x s = .error h s' ∨ ∃ a s₁, x s = .ok a s₁ ∧ f a s₁ = .error h s' := by
  cases hx : x s with
  | error e s₁ =>
    rw [bind_error f hx] at he
    cases he
    exact .inl rfl
  | ok a s₁ =>
    rw [bind_ok f hx] at he
    exact .inr ⟨a, s₁, rfl, he⟩

theorem bind_congr {y : Run α} (f : α → Run β) (h : x s = y s') : (x >>= f) s = (y >>= f) s' := by
  show EStateM.bind x f s = EStateM.bind y f s'
  rw [EStateM.bind, EStateM.bind, h]

theorem still_pure (a : α) : Still (pure a : Run α) where
  ok h := by cases h; rfl
  error h := by cases h

theorem still_throw (halt : Halt) : Still (throw halt : Run α) where
  ok h := by cases h
  error h := by cases h; rfl

theorem still_fail (kind : ErrorKind) : Still (fail kind : Run α) := still_throw _

theorem still_ofExcept (r : Except EvalError α) : Still (ofExcept r) := by
  cases r with
  | ok a => exact still_pure a
  | error e => exact still_throw _

theorem still_ofOption (r : Option α) : Still (ofOption r) := by
  cases r with
  | some a => exact still_pure a
  | none => exact still_throw _

theorem still_get : Still (get : Run Store) where
  ok h := by cases h; rfl
  error h := by cases h

theorem Still.bind (hx : Still x) (hf : ∀ a, Still (f a)) : Still (x >>= f) := by
  constructor
  · intro s b s' h
    obtain ⟨a, s₁, ha, hb⟩ := ok_of_bind h
    rw [(hf a).ok hb, hx.ok ha]
  · intro s e s' h
    rcases error_of_bind h with ha | ⟨a, s₁, ha, hb⟩
    · exact hx.error ha
    · rw [(hf a).error hb, hx.ok ha]

theorem ok_of_get_bind {g : Store → Run β} {b : β} (h : (get >>= g) s = .ok b s') :
    g s s = .ok b s' := h

end Run

namespace Indexable

variable {c : Indexable} {key old : Value} {s : Store}

theorem live_of_get (hold : c.get s key = .ok old) (hnull : old ≠ .null) : c.Live s := by
  cases c with
  | map r =>
    apply lt_size_of_getD
    intro he
    cases hk : mapKey key with
    | error e =>
      rw [get, hk] at hold
      cases hold
    | ok k =>
      rw [get, hk, Store.entries, he] at hold
      cases hold
      exact hnull rfl
  | _ => trivial

end Indexable

namespace Place

def isHost : Place → Bool
  | .hostField .. | .staticField .. => true
  | .cell .. | .element .. => false

/-- The type that values are cast to when they are stored. Lists, maps and host fields take them as they
are. -/
def type : Place → Ty
  | .cell _ _ t _ => t
  | .element c _ => c.elementType
  | .hostField .. | .staticField .. => .any

/-- The location that a place names. Fields of the host and characters of texts have none. -/
def location? (s : Store) : Place → Option Location
  | .cell r .. => some (.cell r)
  | .element c key => c.location? s key
  | .hostField .. | .staticField .. => none

/-- A place whose cell or map is there. Of lists, arrays and buffers this is known where a key names one
of their positions. -/
def Live (s : Store) : Place → Prop
  | .cell r .. => r < s.cells.size
  | .element c _ => c.Live s
  | .hostField .. | .staticField .. => True

theorem location?_put (s : Store) (v : Value) (l : Location) (p : Place) :
    p.location? (s.put v l) = p.location? s := by
  cases p with
  | element c key => exact Indexable.location?_put s v l c key
  | cell | hostField | staticField => rfl

end Place

namespace Machine

variable {m : Machine} {p : Place} {v w old : Value} {s s' : Store} {l : Location}

theorem still_read (hp : p.isHost = false) : Run.Still (m.read p) := by
  cases p with
  | cell r name t final => exact Run.still_get.bind fun s => Run.still_pure _
  | element c key => exact Run.still_get.bind fun s => Run.still_ofExcept _
  | hostField | staticField => cases hp

theorem read_of_location (h : p.location? s = some l) : m.read p s = .ok (s.look l) s := by
  cases p with
  | cell r =>
    cases h
    rfl
  | element c key =>
    have hget := Indexable.get_of_location h
    rw [read]
    show Run.ofExcept (c.get s key) s = _
    rw [hget]
    rfl
  | hostField | staticField => cases h

theorem live_of_read (hp : p.isHost = false) (hold : m.read p s = .ok old s) (hvoid : old ≠ .void)
    (hnull : old ≠ .null) : p.Live s := by
  cases p with
  | cell r name t final =>
    cases hold
    exact lt_size_of_getD hvoid
  | element c key => exact Indexable.live_of_get (Run.ok_of_ofExcept (Run.ok_of_get_bind hold)) hnull
  | hostField | staticField => cases hp

theorem takes_of_location (hlive : p.Live s) (hl : p.location? s = some l) (hw : p.type.cast v = .ok w) :
    s.Takes w l := by
  cases p with
  | cell r =>
    cases hl
    exact hlive
  | element c key => exact Indexable.takes_of_location hlive hl hw
  | hostField | staticField => cases hl

/-- A value is stored by putting it, cast to the type of the place, at the location that the place names; if
there is no such location or the value does not cast, nothing is done. -/
theorem store_cases (m : Machine) (hp : p.isHost = false) (v : Value) (s : Store) :
    (∃ l w, p.location? s = some l ∧ p.type.cast v = .ok w ∧ m.store p v s = .ok w (s.put w l)) ∨
      ((p.location? s = none ∨ ∃ e, p.type.cast v = .error e) ∧ ∃ halt, m.store p v s = .error halt s) := by
  cases p with
  | cell r name t final =>
    cases hv : t.cast v with
    | error e =>
      refine .inr ⟨.inr ⟨e, hv⟩, .error (e.withNote ("assignment to `" ++ name ++ "`")), ?_⟩
      rw [store, Ty.castNoting, hv]
      rfl
    | ok w =>
      refine .inl ⟨.cell r, w, rfl, hv, ?_⟩
      rw [store, Ty.castNoting, hv]
      rfl
  | element c key => exact c.set_cases key v s
  | hostField | staticField => cases hp

theorem atomic_store (hp : p.isHost = false) (v : Value) : Run.Atomic (m.store p v) := by
  intro s halt s' h
  rcases m.store_cases hp v s with ⟨l, w, -, -, hstore⟩ | ⟨-, halt', hstore⟩
  · cases hstore.symm.trans h
  · cases hstore.symm.trans h
    rfl

theorem write_cases (m : Machine) (p : Place) (v : Value) :
    m.write p v = m.store p v ∨ ∃ name, m.write p v = Run.fail (.immutableBinding name) := by
  cases p with
  | cell r name t final =>
    cases final with
    | true => exact .inr ⟨name, rfl⟩
    | false => exact .inl rfl
  | element | hostField | staticField => exact .inl rfl

theorem atomic_write (hp : p.isHost = false) (v : Value) : Run.Atomic (m.write p v) := by
  rcases write_cases m p v with hw | ⟨name, hw⟩
  · rw [hw]
    exact atomic_store hp v
  · rw [hw]
    exact (Run.still_fail _).atomic

/-- What is written is the value cast to the type of the place, and it is read from there on. -/
theorem write_ok (hp : p.isHost = false) (hold : m.read p s = .ok old s) (hvoid : old ≠ .void)
    (hnull : old ≠ .null) (h : m.write p v s = .ok w s') :
    p.type.cast v = .ok w ∧ m.read p s' = .ok w s' := by
  rcases write_cases m p v with hw | ⟨name, hw⟩
  · rw [hw] at h
    rcases m.store_cases hp v s with ⟨l, u, hl, hcast, hstore⟩ | ⟨-, halt, hstore⟩
    · cases hstore.symm.trans h
      have htakes := takes_of_location (live_of_read hp hold hvoid hnull) hl hcast
      refine ⟨hcast, ?_⟩
      rw [read_of_location ((p.location?_put s w l).trans hl), Store.look_put_self htakes]
    · cases hstore.symm.trans h
  · rw [hw] at h
    cases h

end Machine

end ExprCore
