import ExprCore.Interpreter
import ExprCore.Host.Classes
import ExprCore.Proofs.Likeness.Operators
import ExprCore.Proofs.StoreTyping
import Mathlib.Data.Finite.Prod
import Mathlib.Data.Fintype.Card
import Mathlib.Data.Set.Finite.Lattice
import Mathlib.Logic.Relation

/-!
Walks over values that hold each other. The text of a value walks down into its parts, and a comparison walks
down into the parts of two values side by side. A store holds finitely many values, so a walk that never ends
comes back to where it was: a value has a text if and only if no container in it contains itself, and a
comparison ends if no pair of values that it compares leads back to itself.
-/

namespace ExprCore
set_option autoImplicit false

open Relation

/-- No walk down from a point comes back to where it was. -/
def AcyclicBelow {α : Type} (R : α → α → Prop) (a : α) : Prop :=
  ∀ b, ReflTransGen R b a → ¬TransGen R b b

namespace AcyclicBelow

variable {α : Type} {R : α → α → Prop} {a : α}

theorem acc_of_reach {b : α} (ha : Acc R a) (hb : ReflTransGen R b a) : Acc R b := by
  induction hb using ReflTransGen.head_induction_on with
  | refl => exact ha
  | head h _ ih => exact ih.inv h

theorem not_rel_self (ha : Acc R a) : ¬R a a := by
  induction ha with
  | intro a _ ih => exact fun h => ih a h h

/-- Where finitely many points lie below others, the walks down from a point end if and only if they are
without a cycle. -/
theorem iff_acc {below : Set α} (hfin : below.Finite) (hR : ∀ b c, R b c → b ∈ below) :
    AcyclicBelow R a ↔ Acc R a := by
  constructor
  · intro h
    have hreach : {b | ReflTransGen R b a}.Finite := by
      refine (hfin.insert a).subset fun b hb => ?_
      rcases ReflTransGen.cases_head hb with rfl | ⟨c, hbc, -⟩
      · exact Set.mem_insert b below
      · exact Set.mem_insert_of_mem a (hR b c hbc)
    have := hreach.to_subtype
    -- On the points in reach of `a`, walks down are a strict order.
    let below (x y : {b | ReflTransGen R b a}) : Prop := TransGen R x.1 y.1
    have : IsTrans _ below := ⟨fun _ _ _ => TransGen.trans⟩
    have : Std.Irrefl below := ⟨fun x => h x.1 x.2⟩
    have hwf : WellFounded below := Finite.wellFounded_of_trans_of_irrefl below
    have hacc (x : {b | ReflTransGen R b a}) : Acc R x.1 := by
      induction x using hwf.induction with
      | _ x ih => exact .intro x.1 fun y hy => ih ⟨y, .head hy x.2⟩ (.single hy)
    exact hacc ⟨a, .refl⟩
  · intro h b hb
    exact not_rel_self (acc_transGen_iff.mpr (acc_of_reach h hb))

end AcyclicBelow

/-- Walks that each end on some fuel all end on common fuel. -/
theorem exists_common_fuel {α β : Type} {f : Nat → α → Option β}
    (hmono : ∀ n m a, n ≤ m → (f n a).isSome → (f m a).isSome) {as : List α}
    (h : ∀ a ∈ as, ∃ n, (f n a).isSome) : ∃ n, ∀ a ∈ as, (f n a).isSome := by
  induction as with
  | nil => exact ⟨0, nofun⟩
  | cons a as ih =>
    obtain ⟨n, hn⟩ := h a List.mem_cons_self
    obtain ⟨m, hm⟩ := ih fun a' ha' => h a' (List.mem_cons_of_mem a ha')
    refine ⟨max n m, fun a' ha' => ?_⟩
    rcases List.mem_cons.mp ha' with rfl | ha'
    · exact hmono n _ _ (Nat.le_max_left n m) hn
    · exact hmono m _ _ (Nat.le_max_right n m) (hm a' ha')

namespace Store

theorem finite_holds (s : Store) : {v | s.Holds v}.Finite := by
  refine (List.finite_toSet (s.cells.toList ++ s.sequences.toList.flatten ++
    s.maps.toList.flatten.map Prod.snd ++ s.records.toList.flatten)).subset fun v hv => ?_
  simp only [Set.mem_ofPred_eq, List.mem_append, List.mem_map, List.mem_flatten, Array.mem_toList_iff]
  cases hv with
  | cell h => exact .inl (.inl (.inl h))
  | item hs h => exact .inl (.inl (.inr ⟨_, hs, h⟩))
  | entry hs h => exact .inl (.inr ⟨_, ⟨_, hs, h⟩, rfl⟩)
  | field hs h => exact .inr ⟨_, hs, h⟩

end Store

namespace Value

variable {s : Store} {n : Nat} {v w : Value}

def parts (s : Store) : Value → List Value
  | .list r | .array _ r => s.items r
  | .map r => (s.entries r).map Prod.snd
  | _ => []

def PartOf (s : Store) (v w : Value) : Prop := v ∈ w.parts s

theorem holds_of_partOf (h : v.PartOf s w) : s.Holds v := by
  unfold PartOf parts at h
  split at h
  · exact s.holds_item h
  · exact s.holds_item h
  · obtain ⟨e, he, rfl⟩ := List.mem_map.mp h
    exact s.holds_entry he
  · cases h

/-! ### Texts -/

/-- A walk that goes down into the parts of a value, one level for each unit of fuel. -/
structure Descends (s : Store) (walk : Nat → Value → Option String) : Prop where
  zero : ∀ v, (walk 0 v).isSome = false
  succ : ∀ n v, (walk (n + 1) v).isSome ↔ ∀ w ∈ v.parts s, (walk n w).isSome

namespace Descends

variable {walk : Nat → Value → Option String}

theorem mono (hwalk : Descends s walk) {m : Nat} (hnm : n ≤ m) (h : (walk n v).isSome) : (walk m v).isSome := by
  induction n generalizing m v with
  | zero =>
    rw [hwalk.zero] at h
    cases h
  | succ n ih =>
    obtain ⟨m, rfl⟩ := Nat.exists_eq_add_of_le' (Nat.le_of_add_left_le hnm)
    rw [hwalk.succ] at h ⊢
    exact fun w hw => ih (Nat.le_of_add_le_add_right hnm) (h w hw)

theorem isSome_iff_acc (hwalk : Descends s walk) : (∃ n, (walk n v).isSome) ↔ Acc (PartOf s) v := by
  constructor
  · rintro ⟨n, h⟩
    induction n generalizing v with
    | zero =>
      rw [hwalk.zero] at h
      cases h
    | succ n ih => exact .intro v fun w hw => ih ((hwalk.succ n v).mp h w hw)
  · intro h
    induction h with
    | intro v _ ih =>
      obtain ⟨n, hn⟩ := exists_common_fuel (f := walk) (fun _ _ _ hnm => hwalk.mono hnm) ih
      exact ⟨n + 1, (hwalk.succ n v).mpr hn⟩

end Descends

theorem textsWith_isSome {text : Value → Option String} {vs : List Value} :
    (textsWith text vs).isSome ↔ ∀ v ∈ vs, (text v).isSome := by
  induction vs with
  | nil => simp [textsWith]
  | cons v vs ih =>
    rw [List.forall_mem_cons, ← ih]
    cases hv : text v <;> cases hvs : textsWith text vs <;> simp [textsWith, hv, hvs]

theorem entryTexts_isSome {text : Value → Option String} {entry : String → String → String}
    {es : Entries} :
    (entryTexts text entry es).isSome ↔ ∀ v ∈ es.map Prod.snd, (text v).isSome := by
  induction es with
  | nil => simp [entryTexts]
  | cons e es ih =>
    rw [List.map_cons, List.forall_mem_cons, ← ih]
    cases he : text e.2 <;> cases hes : entryTexts text entry es <;> simp [entryTexts, he, hes]

theorem descends_display (s : Store) : Descends s (display s) where
  zero _ := rfl
  succ n v := by
    cases v with
    | list r | array _ r => rw [display, Option.isSome_map, parts, textsWith_isSome]
    | map r => rw [display, Option.isSome_map, parts, entryTexts_isSome]
    | _ => simp [display, parts]

/-- A value has a text if and only if the walks down from it end. -/
theorem display_isSome_iff_acc : (∃ n, (v.display s n).isSome) ↔ Acc (PartOf s) v :=
  (descends_display s).isSome_iff_acc

/-! ### Comparisons -/

/-- The pairs of items that a comparison of two sequences may go on to. One sequence equals itself without a
look at its items, and sequences of different lengths differ. -/
def itemPairs (s : Store) (q r : Ref) : List (Value × Value) :=
  if q = r ∨ (s.items q).length ≠ (s.items r).length then [] else (s.items q).zip (s.items r)

/-- The pairs of values at one key that a comparison of two maps may go on to. -/
def entryPairs (s : Store) (q r : Ref) : List (Value × Value) :=
  if q = r ∨ (s.entries q).length ≠ (s.entries r).length then []
  else (s.entries q).filterMap fun e => ((s.entries r).lookup e.1).map fun w => (e.2, w)

/-- The pairs of parts that a comparison of two values may go on to. -/
def opposites (s : Store) : Value → Value → List (Value × Value)
  | .list q, .list r => itemPairs s q r
  | .array elem q, .array elem' r => if elem = elem' then itemPairs s q r else []
  | .map q, .map r => entryPairs s q r
  | _, _ => []

/-- A comparison of two values may go on to a pair of their parts. -/
def OppositeIn (s : Store) (p q : Value × Value) : Prop := p ∈ q.1.opposites s q.2

theorem mem_of_lookup {entries : Entries} {key : String} (h : entries.lookup key = some v) :
    v ∈ entries.map Prod.snd := by
  induction entries with
  | nil => cases h
  | cons e entries ih =>
    rw [List.lookup_cons] at h
    split at h
    · cases h
      exact List.mem_cons_self
    · exact List.mem_cons_of_mem _ (ih h)

theorem partOf_of_oppositeIn {p q : Value × Value} (h : OppositeIn s p q) :
    p.1.PartOf s q.1 ∧ p.2.PartOf s q.2 := by
  have hitems {q r : Ref} {p : Value × Value} (h : p ∈ itemPairs s q r) :
      p.1 ∈ s.items q ∧ p.2 ∈ s.items r := by
    unfold itemPairs at h
    split at h
    · cases h
    · exact List.of_mem_zip h
  obtain ⟨v, w⟩ := q
  change p ∈ opposites s v w at h
  unfold opposites at h
  split at h
  · exact hitems h
  · split at h
    · exact hitems h
    · cases h
  · unfold entryPairs at h
    split at h
    · cases h
    · obtain ⟨e, he, hp⟩ := List.mem_filterMap.mp h
      obtain ⟨w, hw, rfl⟩ := Option.map_eq_some_iff.mp hp
      exact ⟨List.mem_map_of_mem he, mem_of_lookup hw⟩
  · cases h

theorem equalItems_isSome {equal : Value → Value → Option Bool} {vs ws : List Value}
    (h : ∀ p ∈ vs.zip ws, (equal p.1 p.2).isSome) : (equalItems equal vs ws).isSome := by
  induction vs generalizing ws with
  | nil => rfl
  | cons v vs ih =>
    cases ws with
    | nil => rfl
    | cons w ws =>
      obtain ⟨same, hsame⟩ := Option.isSome_iff_exists.mp (h (v, w) List.mem_cons_self)
      rw [equalItems, hsame]
      cases same with
      | false => rfl
      | true => exact ih fun p hp => h p (List.mem_cons_of_mem _ hp)

theorem equalEntries_isSome {equal : Value → Value → Option Bool} {other es : Entries}
    (h : ∀ e ∈ es, ∀ w, other.lookup e.1 = some w → (equal e.2 w).isSome) :
    (equalEntries equal other es).isSome := by
  induction es with
  | nil => rfl
  | cons e es ih =>
    rw [equalEntries]
    cases hw : other.lookup e.1 with
    | none => rfl
    | some w =>
      obtain ⟨same, hsame⟩ := Option.isSome_iff_exists.mp (h e List.mem_cons_self w hw)
      simp only [hsame]
      cases same with
      | false => rfl
      | true => exact ih fun e' he' => h e' (List.mem_cons_of_mem _ he')

theorem equal_succ_isSome (h : ∀ p ∈ v.opposites s w, (p.1.equal s n p.2).isSome) :
    (v.equal s (n + 1) w).isSome := by
  have hitems {q r : Ref} (h : ∀ p ∈ itemPairs s q r, (p.1.equal s n p.2).isSome) :
      (if q = r then some true
        else if (s.items q).length = (s.items r).length then
          equalItems (equal s n) (s.items q) (s.items r)
        else some false).isSome := by
    split
    · rfl
    · split
      · rename_i hne hlength
        refine equalItems_isSome fun p hp => h p ?_
        rwa [itemPairs, if_neg (not_or.mpr ⟨hne, not_not.mpr hlength⟩)]
      · rfl
  cases v with
  | list q =>
    cases w with
    | list r => exact hitems h
    | _ => rfl
  | array elem q =>
    cases w with
    | array elem' r =>
      rw [equal]
      split
      · rfl
      · split
        · rename_i helem
          exact hitems (by rwa [opposites, if_pos helem] at h)
        · rfl
    | _ => rfl
  | map q =>
    cases w with
    | map r =>
      rw [equal]
      split
      · rfl
      · split
        · rename_i hne hlength
          rw [opposites, entryPairs, if_neg (not_or.mpr ⟨hne, not_not.mpr hlength⟩)] at h
          refine equalEntries_isSome fun e he w hw => h (e.2, w) ?_
          exact List.mem_filterMap.mpr ⟨e, he, by rw [hw, Option.map_some]⟩
        · rfl
    | _ => rfl
  | _ => cases w <;> rfl

theorem equal_isSome_of_acc {p : Value × Value} (h : Acc (OppositeIn s) p) :
    ∃ n, (p.1.equal s n p.2).isSome := by
  induction h with
  | intro p _ ih =>
    have hmono (n m : Nat) (p : Value × Value) (hnm : n ≤ m) (h : (p.1.equal s n p.2).isSome) :
        (p.1.equal s m p.2).isSome := by
      obtain ⟨same, hsame⟩ := Option.isSome_iff_exists.mp h
      exact Option.isSome_of_eq_some (equal_mono hnm hsame)
    obtain ⟨n, hn⟩ := exists_common_fuel hmono ih
    exact ⟨n + 1, equal_succ_isSome hn⟩

/-! ### Cycles -/

theorem acyclicBelow_iff_acc : AcyclicBelow (PartOf s) v ↔ Acc (PartOf s) v :=
  AcyclicBelow.iff_acc s.finite_holds fun _ _ => holds_of_partOf

theorem acyclicBelow_pair_iff_acc {p : Value × Value} :
    AcyclicBelow (OppositeIn s) p ↔ Acc (OppositeIn s) p := by
  refine AcyclicBelow.iff_acc (s.finite_holds.prod s.finite_holds) fun p q h => ?_
  obtain ⟨hv, hw⟩ := partOf_of_oppositeIn h
  exact ⟨holds_of_partOf hv, holds_of_partOf hw⟩

/-- A comparison comes back to no pair if one side has no cycle, or if the sides are one value. -/
theorem acyclicBelow_pair (h : v = w ∨ AcyclicBelow (PartOf s) v ∨ AcyclicBelow (PartOf s) w) :
    AcyclicBelow (OppositeIn s) (v, w) := by
  rw [acyclicBelow_iff_acc, acyclicBelow_iff_acc] at h
  rw [acyclicBelow_pair_iff_acc]
  rcases h with rfl | h | h
  · refine .intro _ fun p hp => ?_
    have hnil : v.opposites s v = [] := by cases v <;> simp [opposites, itemPairs, entryPairs]
    change p ∈ v.opposites s v at hp
    rw [hnil] at hp
    cases hp
  · have hp : Acc (InvImage (PartOf s) Prod.fst) (v, w) := InvImage.accessible Prod.fst h
    exact Subrelation.accessible (fun h => (partOf_of_oppositeIn h).1) hp
  · have hp : Acc (InvImage (PartOf s) Prod.snd) (v, w) := InvImage.accessible Prod.snd h
    exact Subrelation.accessible (fun h => (partOf_of_oppositeIn h).2) hp

theorem display_ends_iff :
    (∃ n t, ∀ m, n ≤ m → v.display s m = some t) ↔ AcyclicBelow (PartOf s) v := by
  rw [acyclicBelow_iff_acc, ← display_isSome_iff_acc]
  constructor
  · rintro ⟨n, t, h⟩
    exact ⟨n, Option.isSome_of_eq_some (h n le_rfl)⟩
  · rintro ⟨n, h⟩
    obtain ⟨t, ht⟩ := Option.isSome_iff_exists.mp h
    exact ⟨n, t, fun m hm => display_mono hm ht⟩

theorem equal_ends (h : AcyclicBelow (OppositeIn s) (v, w)) :
    ∃ n same, ∀ m, n ≤ m → v.equal s m w = some same := by
  obtain ⟨n, hn⟩ := equal_isSome_of_acc (acyclicBelow_pair_iff_acc.mp h)
  obtain ⟨same, hsame⟩ := Option.isSome_iff_exists.mp hn
  exact ⟨n, same, fun m hm => equal_mono hm hsame⟩

end Value

open Value

variable {s : Store} {v w : Value}

theorem Comparison.invoke_ends {op : Comparison} (hop : op.isEquality = true)
    (h : AcyclicBelow (OppositeIn s) (v, w)) :
    ∃ n b, ∀ m, n ≤ m → op.invoke m v w s = .ok (.bool b) s := by
  obtain ⟨n, same, hsame⟩ := equal_ends h
  cases ho : order? v w with
  | some order => exact ⟨n, op.holds order, fun m _ => by rw [invoke, ho]; rfl⟩
  | none =>
    refine ⟨n, same == decide (op = .eq), fun m hm => ?_⟩
    have hrun : op.invoke m v w s =
        (do pure (.bool ((← Run.ofOption (v.equal s m w)) == decide (op = .eq))) : Run Value) s := by
      rw [invoke, ho]
      simp only [hop, if_true]
      rfl
    rw [hrun, hsame m hm]
    rfl

theorem Arith.invoke_add_ends (htext : isText v ∨ isText w) (hv : AcyclicBelow (PartOf s) v)
    (hw : AcyclicBelow (PartOf s) w) :
    ∃ n t, ∀ m, n ≤ m → Arith.add.invoke m v w s = .ok (.str t) s := by
  obtain ⟨n₁, left, hleft⟩ := display_ends_iff.mpr hv
  obtain ⟨n₂, right, hright⟩ := display_ends_iff.mpr hw
  refine ⟨max n₁ n₂, left ++ right, fun m hm => ?_⟩
  have hl := hleft m (le_trans (Nat.le_max_left n₁ n₂) hm)
  have hr := hright m (le_trans (Nat.le_max_right n₁ n₂) hm)
  have hrun : Arith.add.invoke m v w s =
      (do
        let left ← Run.ofOption (v.display s m)
        pure (.str (left ++ (← Run.ofOption (w.display s m)))) : Run Value) s := by
    rw [invoke, if_pos ⟨rfl, htext⟩]
    rfl
  rw [hrun, hl, hr]
  rfl

theorem Machine.evalRaise_ends (h : AcyclicBelow (PartOf s) v) :
    ∃ n t, ∀ (m : Machine) env message s₀, n ≤ m.fuel → m.eval env message s₀ = .ok v s →
      m.evalRaise env message s₀ = .error (.error (.of (.thrown t))) s := by
  obtain ⟨n, t, ht⟩ := display_ends_iff.mpr h
  refine ⟨n, t, fun m env message s₀ hm he => ?_⟩
  have hrun : m.evalRaise env message s₀ =
      (do Run.fail (.thrown (← Run.ofOption (v.display s m.fuel))) : Run Value) s :=
    Run.bind_ok _ he
  rw [hrun, ht m.fuel hm]
  rfl

/-- Printing a value ends if and only if no container that it reaches contains itself. Comparing two values ends
if no pair that the comparison goes on to leads back to itself, which is so if one of the values reaches no
container that contains itself, or if the two are one value. So end `==`, `!=`, joining texts and raising. -/
theorem acyclic_walks_end (s : Store) :
    (∀ v : Value, (∃ n t, ∀ m, n ≤ m → v.display s m = some t) ↔ AcyclicBelow (PartOf s) v) ∧
    (∀ v w : Value, v = w ∨ AcyclicBelow (PartOf s) v ∨ AcyclicBelow (PartOf s) w →
      AcyclicBelow (OppositeIn s) (v, w)) ∧
    (∀ v w : Value, AcyclicBelow (OppositeIn s) (v, w) →
      (∃ n same, ∀ m, n ≤ m → v.equal s m w = some same) ∧
      ∀ op : Comparison, op.isEquality = true →
        ∃ n b, ∀ m, n ≤ m → op.invoke m v w s = .ok (.bool b) s) ∧
    (∀ v w : Value, Arith.isText v ∨ Arith.isText w → AcyclicBelow (PartOf s) v →
      AcyclicBelow (PartOf s) w →
        ∃ n t, ∀ m, n ≤ m → Arith.add.invoke m v w s = .ok (.str t) s) ∧
    ∀ v : Value, AcyclicBelow (PartOf s) v →
      ∃ n t, ∀ (m : Machine) env message s₀, n ≤ m.fuel → m.eval env message s₀ = .ok v s →
        m.evalRaise env message s₀ = .error (.error (.of (.thrown t))) s :=
  ⟨fun _ => display_ends_iff, fun _ _ => acyclicBelow_pair,
    fun _ _ h => ⟨equal_ends h, fun _ hop => Comparison.invoke_ends hop h⟩,
    fun _ _ => Arith.invoke_add_ends, fun _ => Machine.evalRaise_ends⟩

namespace Sample

def sharing : Store :=
  { sequences := #[[.map 0, .str "b"], [.map 0, .str "b"]], maps := #[[("k", .str "a")]] }

def rings : Store :=
  { cells := #[.list 0, .list 1], sequences := #[[.list 0], [.list 1]] }

theorem display_rings (n : Nat) : Value.display rings n (.list 0) = none := by
  by_contra h
  have hacc := display_isSome_iff_acc.mp ⟨n, Option.isSome_iff_ne_none.mpr h⟩
  exact AcyclicBelow.not_rel_self hacc List.mem_cons_self

theorem add_rings (n : Nat) : Arith.add.invoke n (.str "") (.list 0) rings = .error .exhausted rings := by
  cases n with
  | zero => rfl
  | succ n =>
    show (do pure (.str ("" ++ (← Run.ofOption (Value.display rings (n + 1) (.list 0))))) :
      Run Value) rings = _
    rw [display_rings (n + 1)]
    rfl

theorem rings_reached : ∃ i s₀ v, Interpreter.build .default
    [⟨⟨"a", .list .any, false⟩, .list 0⟩, ⟨⟨"b", .list .any, false⟩, .list 1⟩]
    { sequences := #[[], []] } = .ok i s₀ ∧
      i.run (standardHost 0) 9 (.sequence [.extendList (.name "a") .any [.name "a"],
        .extendList (.name "b") .any [.name "b"]]) s₀ = .ok v rings :=
  ⟨_, _, _, rfl, rfl⟩

end Sample

open Sample

/-- Lists that share a map have texts and can be compared. -/
theorem acyclic_walks_end_shared :
    AcyclicBelow (PartOf sharing) (.list 0) ∧
      (∃ n same, ∀ m, n ≤ m → Value.equal sharing m (.list 0) (.list 1) = some same) ∧
      ∃ n t, ∀ m, n ≤ m → Arith.add.invoke m (.str "xs: ") (.list 0) sharing = .ok (.str t) sharing := by
  obtain ⟨htext, hpair, hequal, hadd, -⟩ := acyclic_walks_end sharing
  have hlist : AcyclicBelow (PartOf sharing) (.list 0) :=
    (htext (.list 0)).mp ⟨3, _, fun m hm => display_mono hm rfl⟩
  have hstr : AcyclicBelow (PartOf sharing) (.str "xs: ") :=
    (htext (.str "xs: ")).mp ⟨1, _, fun m hm => display_mono hm rfl⟩
  exact ⟨hlist, (hequal _ _ (hpair _ _ (.inr (.inl hlist)))).1, hadd _ _ (.inl rfl) hstr hlist⟩

/-- Two globals hold lists, and a tree extends each list with itself. Neither has a text after that, and they
cannot be compared. -/
theorem rings_walk_forever :
    ∃ i s₀ v, Interpreter.build .default
        [⟨⟨"a", .list .any, false⟩, .list 0⟩, ⟨⟨"b", .list .any, false⟩, .list 1⟩]
        { sequences := #[[], []] } = .ok i s₀ ∧
      i.run (standardHost 0) 9 (.sequence [.extendList (.name "a") .any [.name "a"],
        .extendList (.name "b") .any [.name "b"]]) s₀ = .ok v rings ∧
      ∀ n, Value.display rings n (.list 0) = none ∧ Value.equal rings n (.list 0) (.list 1) = none ∧
        Comparison.eq.invoke n (.list 0) (.list 1) rings = .error .exhausted rings ∧
        Arith.add.invoke n (.str "") (.list 0) rings = .error .exhausted rings := by
  obtain ⟨i, s₀, v, hbuild, hrun⟩ := rings_reached
  refine ⟨i, s₀, v, hbuild, hrun, fun n => ?_⟩
  have hequal : Value.equal rings n (.list 0) (.list 1) = none := by
    induction n with
    | zero => rfl
    | succ n ih =>
      show equalItems (Value.equal rings n) [.list 0] [.list 1] = none
      rw [equalItems, ih]
  refine ⟨display_rings n, hequal, ?_, add_rings n⟩
  show (do pure (.bool ((← Run.ofOption (Value.equal rings n (.list 0) (.list 1))) == true)) :
    Run Value) rings = _
  rw [hequal]
  rfl

end ExprCore
