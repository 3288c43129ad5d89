import ExprCore.Proofs.Likeness.Programs

/-!
Stores that correspond as wholes: linked containers have like contents, and everything else lies at
the same address on both sides. The cells of frames and objects hold values of their types, host code
treats containers alike, and the bodies of functions are related trees.
-/

namespace ExprCore
set_option autoImplicit false

section Lists

variable {α β : Type} {R : α → β → Prop}

theorem forall₂_set {as : List α} {bs : List β} {a : α} {b : β} (h : List.Forall₂ R as bs)
    (i : Nat) (hab : R a b) : List.Forall₂ R (as.set i a) (bs.set i b) := by
  induction h generalizing i with
  | nil => exact .nil
  | cons h hs ih =>
    cases i with
    | zero => exact .cons hab hs
    | succ i => exact .cons h (ih i)

theorem forall₂_set_right {as : List α} {bs : List β} {b : β} (h : List.Forall₂ R as bs) (i : Nat)
    (hb : ∀ a, as[i]? = some a → R a b) : List.Forall₂ R as (bs.set i b) := by
  induction h generalizing i with
  | nil => exact .nil
  | cons h hs ih =>
    cases i with
    | zero => exact .cons (hb _ rfl) hs
    | succ i => exact .cons h (ih i hb)

theorem forall₂_modify {as : List α} {bs : List β} {f : α → α} {g : β → β}
    (h : List.Forall₂ R as bs) (i : Nat) (hf : ∀ a b, R a b → R (f a) (g b)) :
    List.Forall₂ R (as.modify i f) (bs.modify i g) := by
  induction h generalizing i with
  | nil => cases i <;> exact .nil
  | cons h hs ih =>
    cases i with
    | zero => exact .cons (hf _ _ h) hs
    | succ i => exact .cons h (ih i)

theorem forall₂_getD {as : List α} {bs : List β} {a : α} {b : β} (h : List.Forall₂ R as bs)
    (i : Nat) (hab : R a b) : R (as[i]?.getD a) (bs[i]?.getD b) := by
  generalize as[i]? = x, bs[i]? = y, forall₂_getElem? h i = hr
  cases hr with
  | none => exact hab
  | some h => exact h

end Lists

def Env.layouts (env : Env) : List Layout := env.map Frame.layout

/-- What is known of the stores of two runs: which containers stand for which, at least those that
were linked from the start, and the types of the cells. -/
structure World (known : Links) where
  links : Links
  cells : List Ty
  known_le : known ≤ links

namespace World

variable {known : Links}

instance : Preorder (World known) where
  le w w' := w.links ≤ w'.links ∧ w.cells <+: w'.cells
  le_refl w := ⟨le_rfl, List.prefix_refl _⟩
  le_trans _ _ _ h g := ⟨h.1.trans g.1, h.2.trans g.2⟩

theorem cell_of_le {w w' : World known} (h : w ≤ w') {r : Ref} {t : Ty}
    (ht : w.cells[r]? = some t) : w'.cells[r]? = some t := by
  obtain ⟨more, hm⟩ := h.2
  obtain ⟨hr, -⟩ := List.getElem?_eq_some_iff.mp ht
  rw [← hm, List.getElem?_append_left hr, ht]

end World

def Env.Typed (cells : List Ty) (env : Env) : Prop :=
  ∀ frame ∈ env, ∀ i slot, frame.layout[i]? = some slot →
    cells[frame.base + i]? = some slot.type

theorem Env.Typed.mono {known : Links} {w w' : World known} (hw : w ≤ w') {env : Env} (h : env.Typed w.cells) :
    env.Typed w'.cells :=
  fun frame hf i slot hi => World.cell_of_le hw (h frame hf i slot hi)

namespace Store

theorem items_push (s : Store) (items : List Value) (r : Ref) :
    Store.items { s with sequences := s.sequences.push items } r =
      if r = s.sequences.size then items else s.items r := by
  unfold Store.items
  rw [Array.getElem?_push]
  split <;> rfl

theorem items_push_self (s : Store) (items : List Value) :
    Store.items { s with sequences := s.sequences.push items } s.sequences.size = items := by
  rw [items_push, if_pos rfl]

theorem getD_setIfInBounds {α : Type} (as : Array α) (q r : Ref) (a d : α) :
    (as.setIfInBounds q a)[r]?.getD d = if q = r ∧ q < as.size then a else as[r]?.getD d := by
  rw [Array.getElem?_setIfInBounds]
  split
  · rename_i h
    subst h
    split
    · rw [if_pos ⟨rfl, ‹_›⟩]
      rfl
    · rw [if_neg (by simp_all), Array.getElem?_eq_none (by omega)]
  · rw [if_neg (by simp_all)]

theorem items_set (s : Store) (items : List Value) (q r : Ref) :
    Store.items { s with sequences := s.sequences.setIfInBounds q items } r =
      if q = r ∧ q < s.sequences.size then items else s.items r :=
  getD_setIfInBounds s.sequences q r items []

theorem entries_push (s : Store) (entries : Entries) (r : Ref) :
    Store.entries { s with maps := s.maps.push entries } r =
      if r = s.maps.size then entries else s.entries r := by
  unfold Store.entries
  rw [Array.getElem?_push]
  split <;> rfl

theorem entries_set (s : Store) (entries : Entries) (q r : Ref) :
    Store.entries { s with maps := s.maps.setIfInBounds q entries } r =
      if q = r ∧ q < s.maps.size then entries else s.entries r :=
  getD_setIfInBounds s.maps q r entries []

theorem Contents.newSequence {ρ σ : Links} {s s' : Store} (h : Contents ρ s s') (hσ : ρ ≤ σ)
    (hr : σ.rel .sequence s.sequences.size s'.sequences.size)
    (honly : ∀ area r r', σ.rel area r r' → ρ.rel area r r' ∨
      area = .sequence ∧ r = s.sequences.size ∧ r' = s'.sequences.size)
    {items items' : List Value} (hi : Value.Likes ρ items items') :
    Contents σ { s with sequences := s.sequences.push items }
      { s' with sequences := s'.sequences.push items' } := by
  refine ⟨fun {r r'} hrr => ?_, fun {r r'} hrr => ?_, fun {r r'} hrr => ?_⟩
  · have hrr' := σ.oneToOne hrr hr
    rw [items_push, items_push]
    rcases honly _ r r' hrr with hρ | ⟨-, rfl, rfl⟩
    · split
      · rw [if_pos (hrr'.mp ‹_›)]
        exact hi.mono hσ
      · rw [if_neg fun h => ‹¬_› (hrr'.mpr h)]
        exact (h.items hρ).mono hσ
    · rw [if_pos rfl, if_pos rfl]
      exact hi.mono hσ
  · rcases honly _ r r' hrr with hρ | ⟨hs, -⟩
    · exact h.chars hρ
    · cases hs
  · rcases honly _ r r' hrr with hρ | ⟨hs, -⟩
    · exact (h.entries hρ).imp fun _ _ he => ⟨he.1, he.2.mono hσ⟩
    · cases hs

end Store

/-- How links may grow as lists are made, told from the numbers of lists on both sides. -/
structure Linking where
  good : Links → Nat → Nat → Prop
  extend : ∀ {ρ : Links} {n n' : Nat}, good ρ n n' →
    ∃ σ, ρ ≤ σ ∧ good σ (n + 1) (n' + 1) ∧ σ.rel .sequence n n' ∧
      ∀ area r r', σ.rel area r r' → ρ.rel area r r' ∨ area = .sequence ∧ r = n ∧ r' = n'
  within : ∀ {ρ : Links} {n n' : Nat}, good ρ n n' → ∀ {r r' : Ref}, ρ.rel .sequence r r' →
    (r < n ↔ r' < n')
  buffer : ∀ {ρ : Links} {n n' : Nat}, good ρ n n' → ∀ r r' : Ref, ρ.rel .buffer r r' ↔ r = r'
  map : ∀ {ρ : Links} {n n' : Nat}, good ρ n n' → ∀ r r' : Ref, ρ.rel .map r r' ↔ r = r'

structure Call.Like (ρ : Links) (call call' : Call) : Prop where
  name : call.name = call'.name
  args : Value.Likes ρ call.args call'.args

theorem Call.Like.mono {ρ σ : Links} (hσ : ρ ≤ σ) {call call' : Call} (h : call.Like ρ call') :
    call.Like σ call' := ⟨h.name, h.args.mono hσ⟩

/-- What two runs are compared by. -/
structure Pairing where
  host : Host
  /-- The containers that stand for each other from the start. -/
  known : Links
  /-- Bodies of functions that stand for each other, under frames with the given layouts. -/
  tree : List Layout → Expr → Expr → Prop
  linking : Linking
  strict : Bool
  lax : Bool

namespace Pairing

variable (P : Pairing)

/-- Functions that stand for each other. -/
inductive Twins (w : World P.known) : Callable → Callable → Prop where
  | native {f f' : Native} (h : f.Alike P.strict w.links f') : Twins w (.native f) (.native f')
  | operator {op : Operation} (h : op.Uniform P.strict w.links) :
    Twins w (.operator op) (.operator op)
  | closure {signature : Signature} {body body' : Expr} {env : Env}
    (hp : KnownDefaults P.known signature.params) (he : env.Typed w.cells)
    (hb : P.tree (signature.layout :: env.layouts) body body') :
    Twins w (.closure ⟨signature, body, env⟩) (.closure ⟨signature, body', env⟩)

def TypedObjects (cells : List Ty) (objects : Array Instance) : Prop :=
  ∀ o ∈ objects, ∀ name r t, o.member? name = some (r, t) → cells[r]? = some t

structure Good (w : World P.known) (s s' : Store) : Prop where
  contents : Store.Contents w.links s s'
  linked : P.linking.good w.links s.sequences.size s'.sequences.size
  buffers : s.buffers.size = s'.buffers.size
  maps : s.maps.size = s'.maps.size
  cells : Value.Likes w.links s.cells.toList s'.cells.toList
  typed : List.Forall₂ Ty.Conforms w.cells s.cells.toList
  functions : List.Forall₂ (P.Twins w) s.functions.toList s'.functions.toList
  objects : s.objects = s'.objects
  members : TypedObjects w.cells s.objects
  records : List.Forall₂ (Value.Likes w.links) s.records.toList s'.records.toList
  calls : List.Forall₂ (Call.Like w.links) s.calls s'.calls

variable {P} {w w' : World P.known} {s s' : Store}

theorem Twins.mono (hw : w ≤ w') {f f' : Callable} (h : P.Twins w f f') : P.Twins w' f f' := by
  cases h with
  | native h => exact .native (h.mono hw.1)
  | operator h => exact .operator (h.mono hw.1)
  | closure hp he hb => exact .closure hp (he.mono hw) hb

theorem TypedObjects.mono {objects : Array Instance} (hw : w ≤ w')
    (h : TypedObjects w.cells objects) : TypedObjects w'.cells objects :=
  fun o ho name r t hm => World.cell_of_le hw (h o ho name r t hm)

theorem Good.newSequence (h : P.Good w s s') {items items' : List Value}
    (hi : Value.Likes w.links items items') :
    ∃ w', w ≤ w' ∧ w'.links.rel .sequence s.sequences.size s'.sequences.size ∧
      P.Good w' { s with sequences := s.sequences.push items }
        { s' with sequences := s'.sequences.push items' } := by
  obtain ⟨σ, hσ, hg, hr, honly⟩ := P.linking.extend h.linked
  have hw : w ≤ ⟨σ, w.cells, w.known_le.trans hσ⟩ := ⟨hσ, List.prefix_refl _⟩
  refine ⟨⟨σ, w.cells, w.known_le.trans hσ⟩, hw, hr, ?_⟩
  exact
    { contents := h.contents.newSequence hσ hr honly hi
      linked := by simpa only [Array.size_push] using hg
      buffers := h.buffers
      maps := h.maps
      cells := h.cells.mono hσ
      typed := h.typed
      functions := h.functions.imp fun _ _ => Twins.mono hw
      objects := h.objects
      members := h.members
      records := h.records.imp fun _ _ => Value.Likes.mono hσ
      calls := h.calls.imp fun _ _ => Call.Like.mono hσ }

theorem Good.writeSequence (h : P.Good w s s') {r r' : Ref} (hr : w.links.rel .sequence r r')
    {items items' : List Value} (hi : Value.Likes w.links items items') :
    P.Good w { s with sequences := s.sequences.setIfInBounds r items }
      { s' with sequences := s'.sequences.setIfInBounds r' items' } := by
  refine
    { h with
      contents := ⟨fun {q q'} hq => ?_, h.contents.chars, h.contents.entries⟩
      linked := by simpa only [Array.size_setIfInBounds] using h.linked }
  rw [Store.items_set, Store.items_set]
  have hrq := w.links.oneToOne hr hq
  have hb := P.linking.within h.linked hr
  split
  · rename_i hc
    rw [if_pos ⟨hrq.mp hc.1, hb.mp hc.2⟩]
    exact hi
  · rename_i hc
    rw [if_neg fun g => hc ⟨hrq.mpr g.1, hb.mpr g.2⟩]
    exact h.contents.items hq

theorem Good.writeBuffer (h : P.Good w s s') {r r' : Ref} (hr : w.links.rel .buffer r r')
    (chars : List Char) :
    P.Good w { s with buffers := s.buffers.setIfInBounds r chars }
      { s' with buffers := s'.buffers.setIfInBounds r' chars } := by
  obtain rfl := (P.linking.buffer h.linked r r').mp hr
  refine
    { h with
      contents := ⟨h.contents.items, fun {q q'} hq => ?_, h.contents.entries⟩
      buffers := by simpa only [Array.size_setIfInBounds] using h.buffers }
  obtain rfl := (P.linking.buffer h.linked q q').mp hq
  have hc := h.contents.chars hq
  unfold Store.chars at hc ⊢
  rw [Array.getElem?_setIfInBounds, Array.getElem?_setIfInBounds, h.buffers]
  split
  · rfl
  · exact hc

theorem Good.writeMap (h : P.Good w s s') {r r' : Ref} (hr : w.links.rel .map r r')
    {es es' : Entries} (he : Entries.Like w.links es es') :
    P.Good w { s with maps := s.maps.setIfInBounds r es }
      { s' with maps := s'.maps.setIfInBounds r' es' } := by
  obtain rfl := (P.linking.map h.linked r r').mp hr
  refine
    { h with
      contents := ⟨h.contents.items, h.contents.chars, fun {q q'} hq => ?_⟩
      maps := by simpa only [Array.size_setIfInBounds] using h.maps }
  obtain rfl := (P.linking.map h.linked q q').mp hq
  have hc := h.contents.entries hq
  unfold Store.entries at hc ⊢
  rw [Array.getElem?_setIfInBounds, Array.getElem?_setIfInBounds, h.maps]
  split
  · split
    · exact he
    · exact .nil
  · exact hc

theorem Good.newBuffer (h : P.Good w s s') (chars : List Char) :
    w.links.rel .buffer s.buffers.size s'.buffers.size ∧
      P.Good w { s with buffers := s.buffers.push chars }
        { s' with buffers := s'.buffers.push chars } := by
  refine ⟨(P.linking.buffer h.linked _ _).mpr h.buffers, ?_⟩
  refine
    { h with
      contents := ⟨h.contents.items, fun {q q'} hq => ?_, h.contents.entries⟩
      buffers := by simp only [Array.size_push, h.buffers] }
  obtain rfl := (P.linking.buffer h.linked q q').mp hq
  have hc := h.contents.chars hq
  unfold Store.chars at hc ⊢
  rw [Array.getElem?_push, Array.getElem?_push, h.buffers]
  split
  · rfl
  · exact hc

theorem Good.newMap (h : P.Good w s s') {es es' : Entries} (he : Entries.Like w.links es es') :
    w.links.rel .map s.maps.size s'.maps.size ∧
      P.Good w { s with maps := s.maps.push es } { s' with maps := s'.maps.push es' } := by
  refine ⟨(P.linking.map h.linked _ _).mpr h.maps, ?_⟩
  refine
    { h with
      contents := ⟨h.contents.items, h.contents.chars, fun {q q'} hq => ?_⟩
      maps := by simp only [Array.size_push, h.maps] }
  obtain rfl := (P.linking.map h.linked q q').mp hq
  have hc := h.contents.entries hq
  unfold Store.entries at hc ⊢
  rw [Array.getElem?_push, Array.getElem?_push, h.maps]
  split
  · exact he
  · exact hc

theorem Good.cell (h : P.Good w s s') (r : Ref) : Value.Like w.links (s.cell r) (s'.cell r) := by
  have hc := forall₂_getD h.cells r (.plain (v := .void) rfl)
  simpa only [Store.cell, Array.getElem?_toList] using hc

theorem Good.conforms (h : P.Good w s s') {r : Ref} {t : Ty} (ht : w.cells[r]? = some t) :
    t.Conforms (s.cell r) := by
  have hc := forall₂_getElem? h.typed r
  rw [ht] at hc
  unfold Store.cell
  rw [← Array.getElem?_toList]
  generalize s.cells.toList[r]? = x at hc
  cases hc with
  | some hc => exact hc

theorem Good.writeCell (h : P.Good w s s') {r : Ref} {v v' : Value}
    (hv : Value.Like w.links v v') (ht : ∀ t, w.cells[r]? = some t → t.Conforms v) :
    P.Good w { s with cells := s.cells.setIfInBounds r v }
      { s' with cells := s'.cells.setIfInBounds r v' } := by
  refine
    { h with
      contents := ⟨h.contents.items, h.contents.chars, h.contents.entries⟩
      cells := ?_
      typed := ?_ }
  · simpa only [Array.toList_setIfInBounds] using forall₂_set h.cells r hv
  · simpa only [Array.toList_setIfInBounds] using forall₂_set_right h.typed r ht

theorem Good.newCells (h : P.Good w s s') {ts : List Ty} {vs vs' : List Value}
    (hv : Value.Likes w.links vs vs') (ht : List.Forall₂ Ty.Conforms ts vs) :
    P.Good ⟨w.links, w.cells ++ ts, w.known_le⟩ { s with cells := s.cells ++ vs }
      { s' with cells := s'.cells ++ vs' } := by
  have hw : w ≤ ⟨w.links, w.cells ++ ts, w.known_le⟩ := ⟨le_rfl, List.prefix_append _ _⟩
  refine
    { h with
      contents := ⟨h.contents.items, h.contents.chars, h.contents.entries⟩
      cells := ?_
      typed := ?_
      functions := h.functions.imp fun _ _ => Twins.mono hw
      members := h.members.mono hw }
  · simpa only [Array.toList_appendList] using List.rel_append h.cells hv
  · simpa only [Array.toList_appendList] using List.rel_append h.typed ht

theorem Good.callable (h : P.Good w s s') (r : Ref) :
    P.Twins w (s.callable r) (s'.callable r) := by
  have hf := forall₂_getD h.functions r (a := default) (b := default)
    (show P.Twins w (.operator .not) (.operator .not) from .operator trivial)
  simpa only [Store.callable, Array.getElem?_toList] using hf

theorem Good.newFunction (h : P.Good w s s') {f f' : Callable} (hf : P.Twins w f f') :
    s.functions.size = s'.functions.size ∧
      P.Good w { s with functions := s.functions.push f }
        { s' with functions := s'.functions.push f' } := by
  refine ⟨by simpa only [Array.length_toList] using h.functions.length_eq, ?_⟩
  refine
    { h with
      contents := ⟨h.contents.items, h.contents.chars, h.contents.entries⟩
      functions := ?_ }
  simpa only [Array.toList_push] using List.rel_append h.functions (.cons hf .nil)

theorem Good.field (h : P.Good w s s') (r : Ref) (i : Nat) :
    Value.Like w.links (s.field r i) (s'.field r i) := by
  have hf := forall₂_getD (forall₂_getD h.records r (a := []) (b := []) .nil) i
    (.plain (v := .null) rfl)
  simpa only [Store.field, Array.getElem?_toList] using hf

theorem Good.newRecord (h : P.Good w s s') {fields fields' : List Value}
    (hf : Value.Likes w.links fields fields') :
    s.records.size = s'.records.size ∧
      P.Good w { s with records := s.records.push fields }
        { s' with records := s'.records.push fields' } := by
  refine ⟨by simpa only [Array.length_toList] using h.records.length_eq, ?_⟩
  refine
    { h with
      contents := ⟨h.contents.items, h.contents.chars, h.contents.entries⟩
      records := ?_ }
  simpa only [Array.toList_push] using List.rel_append h.records (.cons hf .nil)

theorem Good.writeRecord (h : P.Good w s s') (r : Ref) (i : Nat) {v v' : Value}
    (hv : Value.Like w.links v v') :
    P.Good w { s with records := s.records.modify r fun fields => fields.set i v }
      { s' with records := s'.records.modify r fun fields => fields.set i v' } := by
  refine
    { h with
      contents := ⟨h.contents.items, h.contents.chars, h.contents.entries⟩
      records := ?_ }
  simpa only [Array.toList_modify] using
    forall₂_modify h.records r fun _ _ hf => forall₂_set hf i hv

theorem Good.recordCall (h : P.Good w s s') {call call' : Call} (hc : call.Like w.links call') :
    P.Good w { s with calls := call :: s.calls } { s' with calls := call' :: s'.calls } :=
  { h with
    contents := ⟨h.contents.items, h.contents.chars, h.contents.entries⟩
    calls := .cons hc h.calls }

theorem Good.newObject (h : P.Good w s s') {o : Instance}
    (ho : ∀ name r t, o.member? name = some (r, t) → w.cells[r]? = some t) :
    s.objects.size = s'.objects.size ∧
      P.Good w { s with objects := s.objects.push o } { s' with objects := s'.objects.push o } := by
  refine ⟨by rw [h.objects], ?_⟩
  refine
    { h with
      contents := ⟨h.contents.items, h.contents.chars, h.contents.entries⟩
      objects := congrArg (·.push o) h.objects
      members := fun p hp => ?_ }
  rcases Array.mem_push.mp hp with hp | rfl
  · exact h.members p hp
  · exact ho

theorem Good.instanceAt (h : P.Good w s s') (r : Ref) : s.instanceAt r = s'.instanceAt r := by
  rw [Store.instanceAt, Store.instanceAt, h.objects]

theorem Good.member (h : P.Good w s s') {r : Ref} {name : String} {cell : Ref} {t : Ty}
    (hm : (s.instanceAt r).member? name = some (cell, t)) : w.cells[cell]? = some t := by
  unfold Store.instanceAt at hm
  cases ho : s.objects[r]? with
  | none => rw [ho] at hm; cases hm
  | some o =>
    rw [ho] at hm
    exact h.members o (Array.mem_of_getElem? ho) name cell t hm

abbrev correspondence (P : Pairing) : Correspondence where
  World := World P.known
  order := inferInstance
  links := World.links
  links_mono h := h.1
  strict := P.strict
  lax := P.lax
  good := P.Good
  contents h := h.contents
  newSequence h hi := h.newSequence hi

end Pairing

end ExprCore
