import ExprCore.Proofs.Likeness.Simulation

/-!
Stores as evaluation leaves them: every cell holds a value of its type, no value refers to a list that
was never made, and every function that was made can be called. Such a store corresponds to itself.
-/

namespace ExprCore
set_option autoImplicit false

namespace Store

/-- The containers of a store, each of which stands for itself. -/
def known (s : Store) : Links where
  rel area r r' := r = r' ∧ (area = .sequence → r < s.sequences.size)
  oneToOne := by
    rintro area a _ b _ ⟨rfl, -⟩ ⟨rfl, -⟩
    rfl

inductive Holds (s : Store) (v : Value) : Prop where
  | cell (h : v ∈ s.cells)
  | item {items : List Value} (hs : items ∈ s.sequences) (h : v ∈ items)
  | entry {entries : Entries} (hs : entries ∈ s.maps) {key : String} (h : (key, v) ∈ entries)
  | field {fields : List Value} (hs : fields ∈ s.records) (h : v ∈ fields)

theorem forall_holds {P : Value → Prop} {s : Store} (hcells : ∀ v ∈ s.cells, P v)
    (hitems : ∀ items ∈ s.sequences, ∀ v ∈ items, P v)
    (hentries : ∀ entries ∈ s.maps, ∀ e ∈ entries, P e.2)
    (hfields : ∀ fields ∈ s.records, ∀ v ∈ fields, P v) (v : Value) (h : s.Holds v) : P v := by
  cases h with
  | cell hm => exact hcells v hm
  | item hs hm => exact hitems _ hs v hm
  | entry hs hm => exact hentries _ hs _ hm
  | field hs hm => exact hfields _ hs v hm

theorem mem_of_mem_getD {α : Type} {as : Array (List α)} {r : Ref} {a : α} (h : a ∈ as[r]?.getD []) :
    ∃ items ∈ as, a ∈ items := by
  cases hr : as[r]? with
  | none => rw [hr] at h; cases h
  | some items =>
    rw [hr] at h
    exact ⟨items, Array.mem_of_getElem? hr, h⟩

theorem holds_item (s : Store) {r : Ref} {v : Value} (h : v ∈ s.items r) : s.Holds v := by
  obtain ⟨items, hs, hv⟩ := mem_of_mem_getD h
  exact .item hs hv

theorem holds_entry (s : Store) {r : Ref} {e : String × Value} (h : e ∈ s.entries r) :
    s.Holds e.2 := by
  obtain ⟨entries, hs, he⟩ := mem_of_mem_getD h
  exact .entry hs he

end Store

/-- A function that can be called: host code that treats containers alike, or a body that fits the
frames that it is bound to. -/
def Callable.Sound (strict : Bool) (known : Links) (types : List Ty) : Callable → Prop
  | .native f => f.Uniform strict known
  | .operator op => op.Uniform strict known
  | .closure f => KnownDefaults known f.signature.params ∧ f.env.Typed types ∧
    Expr.Everywhere (Expr.Fits strict known) (f.signature.layout :: f.env.layouts) f.body

/-- A store whose cells have the given types. -/
structure Store.Typed (strict : Bool) (types : List Ty) (s : Store) : Prop where
  /-- A value conforms to the type of its cell. -/
  cells : List.Forall₂ Ty.Conforms types s.cells.toList
  members : Pairing.TypedObjects types s.objects
  /-- The lists that are referred to exist. -/
  held : ∀ v, s.Holds v → Value.Like s.known v v
  functions : ∀ f ∈ s.functions, f.Sound strict s.known types
  /-- The lists that calls were given exist. -/
  calls : ∀ call ∈ s.calls, Value.Likes s.known call.args call.args

namespace Store.Typed

variable {strict : Bool} {types : List Ty} {s : Store}

theorem likes (h : s.Typed strict types) {vs : List Value} (hv : ∀ v ∈ vs, s.Holds v) :
    Value.Likes s.known vs vs :=
  List.forall₂_same.mpr fun v hm => h.held v (hv v hm)

theorem contents (h : s.Typed strict types) : Store.Contents s.known s s where
  items := by
    rintro r _ ⟨rfl, -⟩
    exact h.likes fun v hv => s.holds_item hv
  chars := by
    rintro r _ ⟨rfl, -⟩
    rfl
  entries := by
    rintro r _ ⟨rfl, -⟩
    exact List.forall₂_same.mpr fun e he => ⟨rfl, h.held e.2 (s.holds_entry he)⟩

theorem good {P : Pairing} {w : World P.known} (hw : w.links = s.known) (hk : P.known = s.known)
    (hlink : P.linking.good s.known s.sequences.size s.sequences.size)
    (hsame : ∀ layouts b, Expr.Everywhere (Expr.Fits P.strict P.known) layouts b → P.tree layouts b b)
    (h : s.Typed P.strict w.cells) : P.Good w s s where
  contents := hw ▸ h.contents
  linked := hw ▸ hlink
  buffers := rfl
  maps := rfl
  cells := hw ▸ h.likes fun v hv => .cell (Array.mem_toList_iff.mp hv)
  typed := h.cells
  functions := by
    refine List.forall₂_same.mpr fun f hf => ?_
    have hs := h.functions f (Array.mem_toList_iff.mp hf)
    cases f with
    | native f => exact .native (hw ▸ hs)
    | operator op => exact .operator (hw ▸ hs)
    | closure f => exact .closure (hk ▸ hs.1) hs.2.1 (hsame _ _ (hk ▸ hs.2.2))
  objects := rfl
  members := h.members
  records := by
    refine List.forall₂_same.mpr fun fields hf => hw ▸ h.likes fun v hv => ?_
    exact .field (Array.mem_toList_iff.mp hf) hv
  calls := List.forall₂_same.mpr fun call hc => ⟨rfl, hw ▸ h.calls call hc⟩

end Store.Typed

end ExprCore
