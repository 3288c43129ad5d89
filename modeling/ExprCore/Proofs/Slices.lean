import ExprCore.Proofs.Locations

/-!
Slices. A slice holds the elements of a container between two bounds, in their order and in storage of its
own. Bounds that the container does not have are refused before an element is read.
-/

namespace ExprCore
set_option autoImplicit false

theorem Ty.mapM_cast_of_conforms {t : Ty} {vs : List Value} (h : ∀ v ∈ vs, t.Conforms v) :
    vs.mapM t.cast = .ok vs := by
  rw [mapM_eq_ok_iff, List.forall₂_same]
  exact h

theorem Store.items_push_of_nil {s : Store} {items : List Value} {r : Ref}
    (h : s.items r = [] → items = []) :
    Store.items { s with sequences := s.sequences.push items } r = s.items r := by
  rw [items_push]
  split
  · rename_i hr
    have hnil : s.items r = [] := by
      rw [Store.items, Array.getElem?_eq_none (Nat.le_of_eq hr.symm)]
      rfl
    rw [hnil, h hnil]
  · rfl

namespace Indexable

variable {c : Indexable} {key key' v : Value} {lo hi : Int} {s s' : Store}

def contents (s : Store) : Indexable → List Value
  | .text t => t.toList.map .char
  | .buffer r => (s.chars r).map .char
  | .list r | .array _ r => s.items r
  | .map _ => []

/-- Where a slice ends that has a given lower and upper bound. -/
def sliceEnd (lo hi : Int) (n : Nat) : Int := if hi < lo then n else hi

/-- A value in new storage, of the kind that the slices of a container have, and the store with it. -/
inductive Fresh (s : Store) : Indexable → Value → Store → Prop
  | text (t u : String) : Fresh s (.text t) (.str u) s
  | buffer (r : Ref) (u : String) : Fresh s (.buffer r) (.str u) s
  | list (r : Ref) (items : List Value) :
      Fresh s (.list r) (.list s.sequences.size) { s with sequences := s.sequences.push items }
  | array (elem : Ty) (r : Ref) (items : List Value) :
      Fresh s (.array elem r) (.array elem s.sequences.size) { s with sequences := s.sequences.push items }

/-- A container that holds the elements of another from `lo` up to `stop`, and has left it alone. -/
structure IsSlice (c : Indexable) (lo stop : Int) (s : Store) (d : Indexable) (s' : Store) : Prop where
  length : (d.length s' : Int) = stop - lo
  elements : ∀ k : Int, 0 ≤ k → k < stop - lo → ∀ key' key : Value,
    key'.toInt = .ok k → key.toInt = .ok (lo + k) → ∃ v, d.get s' key' = .ok v ∧ c.get s key = .ok v
  source_length : c.length s' = c.length s
  source : ∀ key, c.get s' key = c.get s key

theorem element_map {α β : Type} (f : α → β) (items : List α) (key : Value) :
    element (items.map f) key = (element items key).map f := by
  unfold element
  rw [List.length_map]
  cases position key items.length with
  | error e => rfl
  | ok i =>
    simp only [bind, Except.bind]
    rw [List.getElem?_map]
    cases items[i]? <;> rfl

theorem get_eq_element (hc : ∀ r, c ≠ .map r) (s : Store) (key : Value) :
    c.get s key = element (c.contents s) key := by
  cases c with
  | text t => exact (element_map _ _ key).symm
  | buffer r => exact (element_map _ _ key).symm
  | list r | array elem r => rfl
  | map r => exact absurd rfl (hc r)

theorem length_eq_contents (hc : ∀ r, c ≠ .map r) (s : Store) : c.length s = (c.contents s).length := by
  cases c with
  | text t => rw [length, contents, List.length_map, String.length_toList]
  | buffer r => rw [length, contents, List.length_map]
  | list r | array elem r => rfl
  | map r => exact absurd rfl (hc r)

theorem element_of_toInt {α : Type} {items : List α} {i : Nat} {a : α} (hk : key.toInt = .ok (i : Int))
    (ha : items[i]? = some a) : element items key = .ok a := by
  obtain ⟨hi, -⟩ := List.getElem?_eq_some_iff.mp ha
  have hpos : position key items.length = .ok i := by
    rw [position, hk]
    simp only [bind, Except.bind]
    rw [if_pos ⟨Int.natCast_nonneg i, Int.ofNat_lt.mpr hi⟩, Int.toNat_natCast]
  obtain ⟨b, hb, he⟩ := element_of_position hpos
  rw [he, Option.some.inj (hb.symm.trans ha)]

theorem isSlice_of_contents {d : Indexable} {start stop : Nat} (hc : ∀ r, c ≠ .map r) (hd : ∀ r, d ≠ .map r)
    (hstart : start ≤ stop) (hstop : stop ≤ c.length s)
    (hsource : c.contents s' = c.contents s)
    (hslice : d.contents s' = ((c.contents s).take stop).drop start) : c.IsSlice start stop s d s' := by
  rw [length_eq_contents hc] at hstop
  constructor
  · rw [length_eq_contents hd, hslice, List.length_drop, List.length_take_of_le hstop]
    omega
  · intro k hk0 hk key' key hkey' hkey
    obtain ⟨i, rfl⟩ := Int.eq_ofNat_of_zero_le hk0
    have hi : start + i < (c.contents s).length := by omega
    have hv : (c.contents s)[start + i]? = some (c.contents s)[start + i] := List.getElem?_eq_getElem hi
    refine ⟨(c.contents s)[start + i], ?_, ?_⟩
    · rw [get_eq_element hd, hslice]
      apply element_of_toInt hkey'
      rw [List.getElem?_drop, List.getElem?_take_of_lt (by omega), hv]
    · rw [get_eq_element hc]
      exact element_of_toInt hkey hv
  · rw [length_eq_contents hc, length_eq_contents hc, hsource]
  · intro key
    rw [get_eq_element hc, get_eq_element hc, hsource]

/-- The bounds of a slice are those that are asked for, in the container, or the first that is outside is
refused. -/
theorem bounds_cases (lo hi : Int) (n : Nat) :
    (((0 ≤ lo ∧ lo ≤ n) ∧ (hi < lo ∨ hi ≤ n)) ∧
        ∃ start stop : Nat, bounds lo hi n = .ok (start, stop) ∧ start = lo ∧ stop = sliceEnd lo hi n ∧
          start ≤ stop ∧ stop ≤ n) ∨
      ¬((0 ≤ lo ∧ lo ≤ n) ∧ (hi < lo ∨ hi ≤ n)) ∧
        bounds lo hi n = .error (.of (.indexOutOfBounds (if 0 ≤ lo ∧ lo ≤ n then hi else lo) n)) := by
  unfold bounds sliceEnd
  by_cases hlo : 0 ≤ lo ∧ lo ≤ n
  · rw [if_neg (not_not_intro hlo), if_pos hlo]
    by_cases hlt : hi < lo
    · rw [if_pos hlt, if_pos hlt]
      exact .inl ⟨⟨hlo, .inl hlt⟩, lo.toNat, n, rfl, by omega, rfl, by omega, le_rfl⟩
    · rw [if_neg hlt, if_neg hlt]
      by_cases hhi : hi ≤ n
      · rw [if_pos hhi]
        exact .inl ⟨⟨hlo, .inr hhi⟩, lo.toNat, hi.toNat, rfl, by omega, by omega, by omega, by omega⟩
      · rw [if_neg hhi]
        exact .inr ⟨fun h => h.2.elim hlt hhi, rfl⟩
  · rw [if_pos hlo, if_neg hlo]
    exact .inr ⟨fun h => hlo h.1, rfl⟩

theorem between_eq {α : Type} {items : List α} {start stop : Nat}
    (h : bounds lo hi items.length = .ok (start, stop)) :
    between items lo hi = .ok ((items.take stop).drop start) := by
  rw [between, h]
  rfl

theorem between_error {α : Type} {items : List α} {e : EvalError}
    (h : bounds lo hi items.length = .error e) : between items lo hi = .error e := by
  rw [between, h]
  rfl

theorem slice_text (t : String) (lo hi : Int) (s : Store) :
    (text t).slice lo hi s =
      (Run.ofExcept (between t.toList lo hi) >>= fun chars =>
        pure (Value.str (String.ofList chars))) s := rfl

theorem slice_buffer (r : Ref) (lo hi : Int) (s : Store) :
    (buffer r).slice lo hi s =
      (Run.ofExcept (between (s.chars r) lo hi) >>= fun chars =>
        pure (Value.str (String.ofList chars))) s := rfl

theorem slice_list (r : Ref) (lo hi : Int) (s : Store) :
    (list r).slice lo hi s = (Run.ofExcept (between (s.items r) lo hi) >>= Run.newList) s := rfl

theorem slice_array (elem : Ty) (r : Ref) (lo hi : Int) (s : Store) :
    (array elem r).slice lo hi s =
      (Run.ofExcept (between (s.items r) lo hi) >>= fun items =>
        Run.ofExcept (items.mapM elem.cast) >>= Run.newArrayOf elem) s := rfl

theorem slice_error (hc : ∀ r, c ≠ .map r) {e : EvalError} (h : bounds lo hi (c.length s) = .error e) :
    c.slice lo hi s = .error (.error e) s := by
  cases c with
  | text t =>
    have hb : bounds lo hi t.toList.length = .error e := by
      rw [String.length_toList]
      exact h
    rw [slice_text, between_error hb]
    rfl
  | buffer r =>
    rw [slice_buffer, between_error h]
    rfl
  | list r =>
    rw [slice_list, between_error h]
    rfl
  | array elem r =>
    rw [slice_array, between_error h]
    rfl
  | map r => exact absurd rfl (hc r)

theorem slice_ok (hc : ∀ r, c ≠ .map r) (hs : ∀ elem r, c = .array elem r → ∀ v ∈ s.items r, elem.Conforms v)
    {start stop : Nat} (h : bounds lo hi (c.length s) = .ok (start, stop)) :
    ∃ v s' d, c.slice lo hi s = .ok v s' ∧ Fresh s c v s' ∧ ofValue v = .ok d ∧ (∀ r, d ≠ .map r) ∧
      c.contents s' = c.contents s ∧ d.contents s' = ((c.contents s).take stop).drop start := by
  have hpush (r : Ref) :
      Store.items { s with sequences := s.sequences.push (((s.items r).take stop).drop start) } r = s.items r :=
    Store.items_push_of_nil fun hnil => by rw [hnil, List.take_nil, List.drop_nil]
  cases c with
  | text t =>
    have hb : bounds lo hi t.toList.length = .ok (start, stop) := by
      rw [String.length_toList]
      exact h
    refine ⟨_, s, _, ?_, .text t (String.ofList ((t.toList.take stop).drop start)), rfl, nofun, rfl, ?_⟩
    · rw [slice_text, between_eq hb]
      rfl
    · simp only [contents, String.toList_ofList, List.map_drop, List.map_take]
  | buffer r =>
    refine ⟨_, s, _, ?_, .buffer r (String.ofList (((s.chars r).take stop).drop start)), rfl, nofun, rfl, ?_⟩
    · rw [slice_buffer, between_eq h]
      rfl
    · simp only [contents, String.toList_ofList, List.map_drop, List.map_take]
  | list r =>
    refine ⟨_, _, _, ?_, .list r (((s.items r).take stop).drop start), rfl, nofun, hpush r,
      s.items_push_self _⟩
    rw [slice_list, between_eq h]
    rfl
  | array elem r =>
    refine ⟨_, _, _, ?_, .array elem r (((s.items r).take stop).drop start), rfl, nofun, hpush r,
      s.items_push_self _⟩
    have hcast : (((s.items r).take stop).drop start).mapM elem.cast =
        .ok (((s.items r).take stop).drop start) := by
      apply Ty.mapM_cast_of_conforms
      intro v hv
      exact hs elem r rfl v (List.mem_of_mem_take (List.mem_of_mem_drop hv))
    rw [slice_array, between_eq h, Run.ofExcept, pure_bind, hcast]
    rfl
  | map r => exact absurd rfl (hc r)

end Indexable

/-- A slice is taken if its bounds are in the container, where an upper bound below the lower one stands for
the end. It has the elements that are read from there, in new storage; otherwise the first bound that is
outside is refused. -/
theorem slice_reads_elements {c : Indexable} {s : Store} (hc : ∀ r, c ≠ .map r)
    (hs : ∀ elem r, c = .array elem r → ∀ v ∈ s.items r, elem.Conforms v) (lo hi : Int) :
    let n := c.length s
    ((∃ v s', c.slice lo hi s = .ok v s') ↔ (0 ≤ lo ∧ lo ≤ n) ∧ (hi < lo ∨ hi ≤ n)) ∧
      (∀ v s', c.slice lo hi s = .ok v s' → Indexable.Fresh s c v s' ∧
        ∃ d, Indexable.ofValue v = .ok d ∧ c.IsSlice lo (Indexable.sliceEnd lo hi n) s d s') ∧
      (∀ halt s', c.slice lo hi s = .error halt s' → s' = s ∧
        halt = .error (.of (.indexOutOfBounds (if 0 ≤ lo ∧ lo ≤ n then hi else lo) n))) ∧
      ∀ start stop, Indexable.bounds lo hi n = .ok (start, stop) → start ≤ stop ∧ stop ≤ n := by
  intro n
  rcases Indexable.bounds_cases lo hi n with ⟨hin, start, stop, hb, rfl, hend, hle, hn⟩ | ⟨hout, hb⟩
  · obtain ⟨v, s', d, hslice, hfresh, hd, hmap, hsource, hcontents⟩ := Indexable.slice_ok hc hs hb
    rw [hslice, hb, ← hend]
    refine ⟨⟨fun _ => hin, fun _ => ⟨v, s', rfl⟩⟩, ?_, nofun, ?_⟩
    · intro w t h
      cases h
      exact ⟨hfresh, d, hd, Indexable.isSlice_of_contents hc hmap hle hn hsource hcontents⟩
    · intro a b h
      cases h
      exact ⟨hle, hn⟩
  · rw [Indexable.slice_error hc hb, hb]
    refine ⟨⟨nofun, fun h => absurd h hout⟩, nofun, ?_, nofun⟩
    intro halt s' h
    cases h
    exact ⟨rfl, rfl⟩

namespace Sample

def row : Store := { sequences := #[[.int 5, .int 6, .int 7]] }

end Sample

open Sample in
/-- A negative upper bound stands for the end of the array, and a lower one is refused. -/
theorem slice_reads_elements_negative :
    (∃ s', (Indexable.array .int 0).slice 2 (-1) row = .ok (.array .int 1) s' ∧
      (Indexable.array .int 1).length s' = 1 ∧
      (Indexable.array .int 1).get s' (.long 0) = (Indexable.array .int 0).get row (.int 2)) ∧
    (Indexable.array .int 0).slice (-1) 2 row = .error (.error (.of (.indexOutOfBounds (-1) 3))) row := by
  have hc : ∀ r, Indexable.array .int 0 ≠ .map r := by
    intro r h
    cases h
  have hs : ∀ elem r, Indexable.array .int 0 = .array elem r → ∀ v ∈ row.items r, elem.Conforms v := by
    intro elem r h v hv
    cases h
    obtain rfl | rfl | rfl : v = .int 5 ∨ v = .int 6 ∨ v = .int 7 := by simpa [Store.items, row] using hv
    all_goals rfl
  constructor
  · obtain ⟨htaken, hslice, -⟩ := slice_reads_elements hc hs 2 (-1)
    obtain ⟨v, s', h⟩ := htaken.mpr (by decide)
    obtain ⟨hfresh, d, hd, hd'⟩ := hslice v s' h
    obtain rfl : v = .array .int 1 := by
      cases hfresh
      rfl
    cases hd
    refine ⟨s', h, Int.ofNat.inj hd'.length, ?_⟩
    obtain ⟨w, hw, hw'⟩ := hd'.elements 0 le_rfl (by decide) (.long 0) (.int 2) rfl rfl
    rw [hw, hw']
  · obtain ⟨htaken, -, herror, -⟩ := slice_reads_elements hc hs (-1) 2
    cases h : (Indexable.array .int 0).slice (-1) 2 row with
    | ok v s' => exact absurd (htaken.mp ⟨v, s', h⟩) (by decide)
    | error halt s' =>
      obtain ⟨rfl, rfl⟩ := herror halt s' h
      rfl

end ExprCore
