import ExprCore.Host.Classes
import ExprCore.Proofs.Building
import ExprCore.Proofs.Contexts
import ExprCore.Proofs.Invariants.Requests

/-!
Declared types. Whatever runs, slots, members and elements of arrays hold values of their types, arrays
keep their length, and nodes that hold their static type yield values of this type.
-/

namespace ExprCore
set_option autoImplicit false

inductive SequenceKind where
  | list
  | array (elem : Ty) (length : Nat)

def SequenceKind.Allows : SequenceKind → List Value → Prop
  | .list, _ => True
  | .array elem length, items => items.length = length ∧ ∀ v ∈ items, elem.Conforms v

/-- The types of the cells of a store and the kinds of its sequences. Both are told once and for all. -/
structure Declarations where
  cells : List Ty
  sequences : List SequenceKind

namespace Declarations

instance : Preorder Declarations where
  le d d' := d.cells <+: d'.cells ∧ d.sequences <+: d'.sequences
  le_refl _ := ⟨List.prefix_refl _, List.prefix_refl _⟩
  le_trans _ _ _ h h' := ⟨h.1.trans h'.1, h.2.trans h'.2⟩

/-- A value that refers to lists and arrays as what they were made as. -/
def Admits (d : Declarations) : Value → Prop
  | .list r => d.sequences[r]? = some .list
  | .array elem r => ∃ length, d.sequences[r]? = some (.array elem length)
  | _ => True

variable {d d' : Declarations}

theorem getElem?_of_prefix {α : Type} {as bs : List α} (h : as <+: bs) {i : Nat} {a : α}
    (ha : as[i]? = some a) : bs[i]? = some a := by
  obtain ⟨more, rfl⟩ := h
  rw [List.getElem?_append_left (List.getElem?_eq_some_iff.mp ha).1, ha]

theorem cell_of_le (h : d ≤ d') {r : Ref} {t : Ty} (ht : d.cells[r]? = some t) :
    d'.cells[r]? = some t := getElem?_of_prefix h.1 ht

theorem Admits.mono (h : d ≤ d') {v : Value} (hv : d.Admits v) : d'.Admits v := by
  cases v with
  | list r => exact getElem?_of_prefix h.2 hv
  | array elem r =>
    obtain ⟨length, hr⟩ := hv
    exact ⟨length, getElem?_of_prefix h.2 hr⟩
  | _ => trivial

theorem admits_of_plain {v : Value} (h : v.isSequence = false) : d.Admits v := by
  cases v <;> trivial

theorem typed_of_le (h : d ≤ d') {env : Env} (he : env.Typed d.cells) : env.Typed d'.cells :=
  fun frame hf i slot hi => cell_of_le h (he frame hf i slot hi)

def withCells (d : Declarations) (types : List Ty) : Declarations := { d with cells := d.cells ++ types }

def withSequence (d : Declarations) (kind : SequenceKind) : Declarations :=
  { d with sequences := d.sequences ++ [kind] }

theorem le_withCells (d : Declarations) (types : List Ty) : d ≤ d.withCells types :=
  ⟨List.prefix_append _ _, List.prefix_refl _⟩

theorem le_withSequence (d : Declarations) (kind : SequenceKind) : d ≤ d.withSequence kind :=
  ⟨List.prefix_refl _, List.prefix_append _ _⟩

end Declarations

/-- A node that fits the frames that it stands in and the declarations. -/
def Expr.WellTyped (d : Declarations) (layouts : List Layout) : Expr → Prop
  | .literal v t => d.Admits v ∧ t.Conforms v
  | .var b => b.Fits layouts
  | .lambda signature _ => ∀ p ∈ signature.params, ∀ v, p.default = some v → d.Admits v
  | e => ∀ op, e.operation? = some op → op.Honest Declarations.Admits d

/-- A function that hands on what is declared only. -/
def Callable.WellTyped (d : Declarations) : Callable → Prop
  | .native f => f.Honest Declarations.Admits d
  | .operator op => op.Honest Declarations.Admits d
  | .closure f => (∀ p ∈ f.signature.params, ∀ v, p.default = some v → d.Admits v) ∧
    f.env.Typed d.cells ∧
    Expr.Everywhere (Expr.WellTyped d) (f.signature.layout :: f.env.layouts) f.body

/-- A store as it is declared. -/
structure Store.WellTyped (d : Declarations) (s : Store) : Prop where
  cells : List.Forall₂ Ty.Conforms d.cells s.cells.toList
  sequences : List.Forall₂ SequenceKind.Allows d.sequences s.sequences.toList
  members : ∀ {r name cell t}, (s.instanceAt r).member? name = some (cell, t) →
    d.cells[cell]? = some t
  held : ∀ v, s.Holds v → d.Admits v
  functions : ∀ f ∈ s.functions, f.WellTyped d

theorem Expr.wellTyped_mono {d d' : Declarations} (h : d ≤ d') {layouts : List Layout} {e : Expr}
    (he : Everywhere (WellTyped d) layouts e) : Everywhere (WellTyped d') layouts e := by
  refine he.imp fun layouts x hx => ?_
  cases x with
  | literal => exact ⟨hx.1.mono h, hx.2⟩
  | lambda => exact fun p hp v hv => (hx p hp v hv).mono h
  | var => exact hx
  | _ => exact fun op hop => (hx op hop).mono h

theorem Callable.WellTyped.mono {d d' : Declarations} (h : d ≤ d') {f : Callable}
    (hf : f.WellTyped d) : f.WellTyped d' := by
  cases f with
  | native f => exact Native.Honest.mono h hf
  | operator op => exact Operation.Honest.mono h hf
  | closure f =>
    obtain ⟨hd, he, hb⟩ := hf
    exact ⟨fun p hp v hv => (hd p hp v hv).mono h, Declarations.typed_of_le h he,
      Expr.wellTyped_mono h hb⟩

namespace Store.WellTyped

variable {d : Declarations} {s : Store}

theorem conforms (h : s.WellTyped d) {r : Ref} {t : Ty} (ht : d.cells[r]? = some t) :
    t.Conforms (s.cell r) := by
  obtain ⟨hr, rfl⟩ := List.getElem?_eq_some_iff.mp ht
  have hl : r < s.cells.toList.length := h.cells.length_eq ▸ hr
  have hc := h.cells.get hr hl
  rw [Store.cell, ← Array.getElem?_toList, List.getElem?_eq_getElem hl]
  exact hc

theorem cell (h : s.WellTyped d) : ∀ v ∈ s.cells, d.Admits v :=
  fun v hm => h.held v (.cell hm)

theorem item (h : s.WellTyped d) : ∀ items ∈ s.sequences, ∀ v ∈ items, d.Admits v :=
  fun _ hm v hv => h.held v (.item hm hv)

theorem entry (h : s.WellTyped d) : ∀ entries ∈ s.maps, ∀ e ∈ entries, d.Admits e.2 :=
  fun _ hm e he => h.held e.2 (.entry hm (show (e.1, e.2) ∈ _ from he))

theorem field (h : s.WellTyped d) : ∀ fields ∈ s.records, ∀ v ∈ fields, d.Admits v :=
  fun _ hm v hv => h.held v (.field hm hv)

theorem size_cells (h : s.WellTyped d) : d.cells.length = s.cells.size := by
  rw [h.cells.length_eq, Array.length_toList]

theorem withCells (h : s.WellTyped d) {types : List Ty} {values : List Value}
    (ht : List.Forall₂ Ty.Conforms types values) (hv : ∀ v ∈ values, d.Admits v) :
    Store.WellTyped (d.withCells types) { s with cells := s.cells ++ values } where
  cells := by
    rw [Array.toList_appendList]
    exact List.rel_append h.cells ht
  sequences := h.sequences
  members hm := Declarations.cell_of_le (d.le_withCells types) (h.members hm)
  held := by
    refine forall_holds (fun v hm => ?_) h.item h.entry h.field
    rw [← Array.mem_toList_iff, Array.toList_appendList, List.mem_append,
      Array.mem_toList_iff] at hm
    exact hm.elim (h.cell v) (hv v)
  functions f hf := (h.functions f hf).mono (d.le_withCells types)

theorem withDefaults (h : s.WellTyped d) (types : List Ty) :
    Store.WellTyped (d.withCells types) { s with cells := s.cells ++ types.map Ty.default } := by
  refine h.withCells ?_ fun v hv => ?_
  · exact List.forall₂_map_right_iff.mpr (List.forall₂_same.mpr fun t _ => t.conforms_default)
  · obtain ⟨t, -, rfl⟩ := List.mem_map.mp hv
    exact Declarations.admits_of_plain (by cases t <;> rfl)

theorem getElem?_withCells (h : s.WellTyped d) (types : List Ty) (i : Nat) :
    (d.withCells types).cells[s.cells.size + i]? = types[i]? := by
  show (d.cells ++ types)[s.cells.size + i]? = types[i]?
  rw [List.getElem?_append_right (by rw [h.size_cells]; exact Nat.le_add_right _ _), h.size_cells,
    Nat.add_sub_cancel_left]

theorem withObject (h : s.WellTyped d) (className : String) (members : List (String × Ty)) :
    Store.WellTyped (d.withCells (members.map Prod.snd))
      { s with
        cells := s.cells ++ members.map fun (_, type) => type.default
        objects := s.objects.push ⟨className, members, s.cells.size⟩ } := by
  have hs := h.withDefaults (members.map Prod.snd)
  rw [List.map_map] at hs
  refine { hs with held := forall_holds hs.cell hs.item hs.entry hs.field, members := ?_ }
  intro r name cell t hm
  rcases Store.member?_of_push hm rfl with hm | hm
  · obtain ⟨i, rfl, hi⟩ := Instance.member?_spec hm
    rw [h.getElem?_withCells, hi]
  · exact hs.members hm

theorem withSequence (h : s.WellTyped d) {kind : SequenceKind} {items : List Value}
    (hk : kind.Allows items) (hv : ∀ v ∈ items, d.Admits v) :
    Store.WellTyped (d.withSequence kind) { s with sequences := s.sequences.push items } where
  cells := h.cells
  sequences := by
    rw [Array.toList_push]
    exact List.rel_append h.sequences (.cons hk .nil)
  members hm := h.members hm
  held v hheld := by
    refine Declarations.Admits.mono (d.le_withSequence kind) ?_
    revert v
    exact forall_holds h.cell (Array.forall_mem_push.mpr ⟨hv, h.item⟩) h.entry h.field
  functions f hf := (h.functions f hf).mono (d.le_withSequence kind)

theorem writeSequence (h : s.WellTyped d) {r : Ref} {items : List Value}
    (hk : ∀ kind, d.sequences[r]? = some kind → kind.Allows items) (hv : ∀ v ∈ items, d.Admits v) :
    Store.WellTyped d { s with sequences := s.sequences.setIfInBounds r items } where
  cells := h.cells
  sequences := by
    rw [Array.toList_setIfInBounds]
    exact forall₂_set_right h.sequences r hk
  members hm := h.members hm
  held := by
    refine forall_holds h.cell (fun items' hs => ?_) h.entry h.field
    rcases Array.mem_or_eq_of_mem_setIfInBounds hs with hs | rfl
    · exact h.item items' hs
    · exact hv
  functions f hf := h.functions f hf

theorem writeCell (h : s.WellTyped d) {r : Ref} {t : Ty} {v : Value} (hr : d.cells[r]? = some t)
    (hv : d.Admits v) (ht : t.Conforms v) :
    Store.WellTyped d { s with cells := s.cells.setIfInBounds r v } where
  cells := by
    rw [Array.toList_setIfInBounds]
    refine forall₂_set_right h.cells r fun u hu => ?_
    rw [hr] at hu
    cases hu
    exact ht
  sequences := h.sequences
  members hm := h.members hm
  held := by
    refine forall_holds (fun u hm => ?_) h.item h.entry h.field
    rcases Array.mem_or_eq_of_mem_setIfInBounds hm with hm | rfl
    · exact h.cell u hm
    · exact hv
  functions f hf := h.functions f hf

end Store.WellTyped

namespace Expr

variable {d : Declarations} {layouts : List Layout} {e : Expr}

end Expr

theorem Binding.Fits.typed {d : Declarations} {env : Env} {b : Binding} {r : Ref}
    (hb : b.Fits env.layouts) (he : env.Typed d.cells)
    (hr : env.cell? b.depth b.address = some r) : d.cells[r]? = some b.type :=
  hb.cell (w := ⟨.same, d.cells, le_rfl⟩) he hr

/-- Slots of live frames hold values of their types. -/
def Env.Filled (s : Store) (env : Env) : Prop :=
  ∀ frame ∈ env, ∀ (i : Nat) (slot : Slot), frame.layout[i]? = some slot →
    slot.type.Conforms (s.cell (frame.base + i))

namespace Store.WellTyped

variable {d d' : Declarations} {s s' : Store}

theorem filled (h : s.WellTyped d) {env : Env} (he : env.Typed d.cells) : env.Filled s :=
  fun frame hf i slot hi => h.conforms (he frame hf i slot hi)

end Store.WellTyped

def Value.Among (known : List Value) (v : Value) : Prop := v.isSequence = true → v ∈ known

def Operation.Using (known : List Value) (op : Operation) : Prop :=
  ∀ d : Declarations, (∀ v ∈ known, d.Admits v) → op.Honest Declarations.Admits d

/-- A node as it is made: a literal has a value of its type, and lists and arrays are known ones. -/
def Expr.Made (known : List Value) : Expr → Prop
  | .literal v t => t.Conforms v ∧ v.Among known
  | .var _ => False
  | .lambda signature _ => ∀ p ∈ signature.params, ∀ v, p.default = some v → v.Among known
  | e => ∀ op, e.operation? = some op → op.Using known

abbrev Expr.MadeOf (known : List Value) (e : Expr) : Prop := Everywhere (fun _ => Made known) [] e

/-- Trees that are made of known values, and calls with known values. -/
def Request.Using (i : Interpreter) (host : Host) (known : List Value) : Request → Prop
  | .run _ e | .eval _ e => e.Written (Expr.MadeOf known) i host
  | .call _ _ args => ∀ v ∈ args, v.Among known

namespace Expr

variable {d : Declarations} {known : List Value} {layouts : List Layout} {e : Expr}

end Expr

namespace Sample

end Sample

open Sample

end ExprCore
