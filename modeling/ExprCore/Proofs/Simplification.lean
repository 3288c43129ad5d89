import ExprCore.Optimize
import ExprCore.Proofs.Conversion
import ExprCore.Proofs.Resolution

/-!
Simplification, step by step. A step folds a constant, drops a cast or prunes what a literal decides.
It keeps the static type and makes the node lighter, so that a node whose children have been
simplified takes few steps: it is left alone, folded, or replaced by a child, perhaps under a cast
that may be folded in turn.
-/

namespace ExprCore
set_option autoImplicit false

namespace Expr

variable {value? : Expr → Option Value} {truth : Value → Bool} {level : Nat} {e r : Expr}

theorem folded?_spec (h : e.folded? value? = some r) :
    e.literal? = none ∧ e.isConstant = true ∧ ∃ v w, value? e = some v ∧ v.isImmutable = true ∧
      e.type.cast v = .ok w ∧ r = .literal w e.type := by
  unfold folded? at h
  split at h
  · cases h
  · rename_i hc
    simp only [Bool.or_eq_true, Bool.not_eq_true', not_or, Bool.not_eq_false] at hc
    obtain ⟨⟨hl, hc⟩, -⟩ := hc
    refine ⟨Option.not_isSome_iff_eq_none.mp hl, hc, ?_⟩
    split at h
    · rename_i v hv
      split at h
      · rename_i hi
        unfold typedLiteral at h
        cases ht : e.type.cast v with
        | error => rw [ht] at h; cases h
        | ok w =>
          rw [ht] at h
          cases h
          exact ⟨v, w, hv, hi, ht, rfl⟩
      · cases h
    · cases h

theorem dropCast?_spec (h : e.dropCast? = some r) :
    e = .cast r.type r ∧ r.holdsType = true := by
  unfold dropCast? at h
  split at h
  · split at h
    · rename_i hc
      cases h
      simp only [Bool.and_eq_true, decide_eq_true_eq] at hc
      exact ⟨by rw [hc.1], hc.2⟩
    · cases h
  · cases h

def decides (op : Connective) (left : Bool) : Bool :=
  match op, left with
  | .and, false | .or, true => true
  | _, _ => false

theorem pruneLogical?_spec {op : Connective} {left : Bool} {rhs : Expr}
    (h : pruneLogical? op left rhs = some r) :
    (decides op left = true ∧ r = .literal (.bool left) .bool) ∨
      (decides op left = false ∧ rhs.isBool = true ∧ r = rhs) := by
  cases op <;> cases left <;> simp only [pruneLogical?, decides] at h ⊢
  · cases h
    exact .inl ⟨trivial, rfl⟩
  · split at h <;> cases h
    exact .inr ⟨trivial, ‹_›, rfl⟩
  · split at h <;> cases h
    exact .inr ⟨trivial, ‹_›, rfl⟩
  · cases h
    exact .inl ⟨trivial, rfl⟩

/-- What a literal decides, case by case. -/
inductive Pruning (truth : Value → Bool) : Expr → Expr → Prop where
  | branch (v : Value) (t : Ty) (a b : Expr) :
    Pruning truth (.conditional (.literal v t) a b)
      ((if truth v then a else b).atType (a.type.union b.type))
  | only {items : List Expr} {e : Expr} (h : withoutLiterals items = [e]) :
    Pruning truth (.sequence items) e
  | items {items : List Expr} (h : (withoutLiterals items).length < items.length)
    (ho : ∀ e, withoutLiterals items ≠ [e]) :
    Pruning truth (.sequence items) (.sequence (withoutLiterals items))
  | before (first : Expr) (v : Value) (t : Ty) : Pruning truth (.before first (.literal v t)) first
  | decided {op : Connective} {v : Value} (t : Ty) (rhs : Expr) (h : decides op (truth v) = true) :
    Pruning truth (.logical op (.literal v t) rhs) (.literal (.bool (truth v)) .bool)
  | rest {op : Connective} {v : Value} (t : Ty) {rhs : Expr} (h : decides op (truth v) = false)
    (hr : rhs.isBool = true) : Pruning truth (.logical op (.literal v t) rhs) rhs

theorem literal?_eq_some {v : Value} (h : e.literal? = some v) : ∃ t, e = .literal v t := by
  cases e <;> cases h
  exact ⟨_, rfl⟩

theorem prune?_spec (h : e.prune? truth = some r) : Pruning truth e r := by
  cases e with
  | conditional cond a b =>
    obtain ⟨v, hv, rfl⟩ := Option.map_eq_some_iff.mp h
    obtain ⟨t, rfl⟩ := literal?_eq_some hv
    exact .branch v t a b
  | sequence items =>
    simp only [prune?, pruneSequence?] at h
    split at h
    · rename_i ho
      cases h
      exact .only ho
    · rename_i ho
      split at h
      · cases h
        exact .items ‹_› ho
      · cases h
  | before first second =>
    obtain ⟨v, hv, rfl⟩ := Option.map_eq_some_iff.mp h
    obtain ⟨t, rfl⟩ := literal?_eq_some hv
    exact .before _ v t
  | logical op lhs rhs =>
    obtain ⟨v, hv, hp⟩ := Option.bind_eq_some_iff.mp h
    obtain ⟨t, rfl⟩ := literal?_eq_some hv
    rcases pruneLogical?_spec hp with ⟨hd, rfl⟩ | ⟨hd, hr, rfl⟩
    · exact .decided t rhs hd
    · exact .rest t hd hr
  | _ => cases h

theorem type_atType (e : Expr) (t : Ty) : (e.atType t).type = t := by
  unfold atType
  split
  · rename_i h
    simp only [Bool.and_eq_true, decide_eq_true_eq] at h
    exact h.1
  · rfl

theorem withoutLiterals_cons_cons (a b : Expr) (items : List Expr) :
    withoutLiterals (a :: b :: items) =
      if a.literal?.isSome then withoutLiterals (b :: items) else a :: withoutLiterals (b :: items) := by
  rw [withoutLiterals]
  nofun

theorem withoutLiterals_cons (a : Expr) (items : List Expr) :
    ∃ kept last, withoutLiterals (a :: items) = kept ++ [last] ∧
      (a :: items).getLast? = some last := by
  induction items generalizing a with
  | nil => exact ⟨[], a, rfl, rfl⟩
  | cons b items ih =>
    obtain ⟨kept, last, hk, hl⟩ := ih (a := b)
    rw [withoutLiterals_cons_cons]
    split
    · exact ⟨kept, last, hk, by rw [List.getLast?_cons_cons, hl]⟩
    · exact ⟨a :: kept, last, by rw [hk]; rfl, by rw [List.getLast?_cons_cons, hl]⟩

theorem lastType_append (items : List Expr) (last : Expr) :
    lastType (items ++ [last]) = last.type := by
  induction items with
  | nil => rfl
  | cons a items ih =>
    cases items with
    | nil => rfl
    | cons b items => exact ih

theorem lastType_withoutLiterals (items : List Expr) :
    lastType (withoutLiterals items) = lastType items := by
  cases items with
  | nil => rfl
  | cons a items =>
    obtain ⟨kept, last, hk, hl⟩ := withoutLiterals_cons a items
    obtain ⟨front, hf⟩ := List.getLast?_eq_some_iff.mp hl
    rw [hk, hf, lastType_append, lastType_append]

theorem Pruning.type_eq (h : Pruning truth e r) : r.type = e.type := by
  cases h with
  | branch v t a b => exact type_atType _ _
  | only ho =>
    have hl := lastType_withoutLiterals
    simp only [type]
    rw [← hl, ho, lastType]
  | items => simp only [type, lastType_withoutLiterals]
  | before => rfl
  | decided => rfl
  | rest t hd hr =>
    simp only [isBool, Bool.and_eq_true, decide_eq_true_eq] at hr
    exact hr.1

theorem simplify?_spec (h : e.simplify? value? truth level = some r) :
    e.folded? value? = some r ∨ (e.folded? value? = none ∧ e.dropCast? = some r) ∨
      (e.folded? value? = none ∧ e.dropCast? = none ∧ Pruning truth e r) := by
  unfold simplify? at h
  cases hf : e.folded? value? with
  | some x =>
    rw [hf] at h
    exact .inl h
  | none =>
    rw [hf, Option.none_or] at h
    cases hd : e.dropCast? with
    | some x =>
      rw [hd] at h
      exact .inr (.inl ⟨rfl, h⟩)
    | none =>
      rw [hd, Option.none_or] at h
      split at h
      · exact .inr (.inr ⟨rfl, rfl, prune?_spec h⟩)
      · cases h

/-- The number of nodes of a tree that may still be simplified: literals may not. -/
def weight (e : Expr) : Nat := if e.literal?.isSome then 0 else e.size

theorem weight_le_size (e : Expr) : e.weight ≤ e.size := by
  unfold weight
  split <;> omega

theorem sizes_withoutLiterals (items : List Expr) :
    sizes (withoutLiterals items) + (items.length - (withoutLiterals items).length) ≤ sizes items ∧
      (withoutLiterals items).length ≤ items.length := by
  induction items with
  | nil => exact ⟨Nat.le_refl _, Nat.le_refl _⟩
  | cons a items ih =>
    cases items with
    | nil => exact ⟨Nat.le_refl _, Nat.le_refl _⟩
    | cons b items =>
      have hp := a.size_pos
      rw [withoutLiterals_cons_cons]
      split
      · simp only [sizes, List.length_cons] at ih ⊢
        omega
      · simp only [sizes, List.length_cons] at ih ⊢
        omega

theorem Pruning.size_lt (h : Pruning truth e r) : r.size < e.size := by
  cases h with
  | branch v t a b =>
    have ha := a.size_pos
    have hb := b.size_pos
    unfold atType
    cases truth v <;> simp only [Bool.false_eq_true, if_true, if_false] <;> split <;>
      simp only [size] <;> omega
  | @only items _ ho =>
    have hs := sizes_withoutLiterals items
    rw [ho] at hs
    simp only [sizes, List.length_singleton] at hs
    simp only [size]
    omega
  | @items items hl =>
    have hs := sizes_withoutLiterals items
    simp only [size]
    omega
  | before first v t =>
    simp only [size]
    omega
  | decided t rhs =>
    simp only [size]
    have := rhs.size_pos
    omega
  | rest =>
    simp only [size]
    omega

theorem weight_of_simplify? (h : e.simplify? value? truth level = some r) : r.weight < e.weight := by
  have hne (he : e.literal? = none) : e.weight = e.size := by rw [weight, he]; rfl
  have hp := e.size_pos
  have hr := r.weight_le_size
  rcases simplify?_spec h with h | ⟨-, h⟩ | ⟨-, -, h⟩
  · obtain ⟨hl, -, v, w, -, -, -, rfl⟩ := folded?_spec h
    rw [hne hl]
    exact hp
  · have hs := (dropCast?_spec h).1
    rw [hs] at hne hp ⊢
    rw [hne rfl]
    simp only [size]
    omega
  · have hs := h.size_lt
    have hl : e.literal? = none := by cases h <;> rfl
    rw [hne hl]
    omega

theorem simplify?_literal (v : Value) (t : Ty) :
    simplify? value? truth level (.literal v t) = none := by
  simp only [simplify?, folded?, literal?, Option.isSome_some, Bool.true_or, if_true, Option.none_or,
    dropCast?, prune?, ite_self]

/-- With as many steps as the node weighs and one, no further step applies. -/
theorem settle_normal {n : Nat} (h : e.weight < n) :
    simplify? value? truth level (settle (simplify? value? truth level) n e).value = none := by
  induction n generalizing e with
  | zero => cases h
  | succ n ih =>
    rw [settle]
    cases hs : e.simplify? value? truth level with
    | none => exact hs
    | some next => exact ih (by have := weight_of_simplify? hs; omega)

/-- The nodes that simplification may replace: those that only compute with the values of their
children. -/
def computes : Expr → Bool
  | .literal .. | .logical .. | .conditional .. | .sequence _ | .before .. | .cast ..
  | .instanceOf .. => true
  | .operator _ op _ => op.isPure
  | _ => false

theorem computes_of_isConstant (h : e.isConstant = true) : e.computes = true := by
  cases e with
  | operator form op operands => exact (Bool.and_eq_true_iff.mp h).1
  | _ => first | rfl | cases h

theorem isConstant_child {c : Entry × Expr} (h : e.isConstant = true) (hc : c ∈ e.children) :
    c.2.isConstant = true := by
  have hall {es : List Expr} (h : allConstant es = true) (hc : c ∈ es.map (Entry.here, ·)) :
      c.2.isConstant = true := by
    rw [allConstant_eq_all, List.all_eq_true] at h
    obtain ⟨x, hx, rfl⟩ := List.mem_map.mp hc
    exact h x hx
  cases e with
  | literal => cases hc
  | operator form op operands => exact hall (Bool.and_eq_true_iff.mp h).2 hc
  | sequence items => exact hall h hc
  | logical | conditional | before | cast | instanceOf =>
    simp only [isConstant, Bool.and_eq_true] at h
    simp only [children, List.mem_cons, List.not_mem_nil, or_false] at hc
    aesop
  | _ => cases h

/-- A tree with every node simplified. -/
def simplified (value? : Expr → Option Value) (truth : Value → Bool) (level : Nat) (e : Expr) :
    Expr :=
  ((simplification value? truth level).revise () e).value

abbrev simplifiedChildren (value? : Expr → Option Value) (truth : Value → Bool) (level : Nat)
    (e : Expr) : Expr :=
  e.mapChildren fun _ x => x.simplified value? truth level

theorem simplified_eq (e : Expr) :
    e.simplified value? truth level =
      (settle (simplify? value? truth level)
        ((e.simplifiedChildren value? truth level).size + 1)
        (e.simplifiedChildren value? truth level)).value := by
  rw [simplified, Pass.value_revise]
  rfl

theorem simplified_normal (e : Expr) :
    simplify? value? truth level (e.simplified value? truth level) = none := by
  rw [simplified_eq]
  exact settle_normal (Nat.lt_succ_of_le (weight_le_size _))

theorem settle_of_none {step? : Expr → Option Expr} (h : step? e = none) (n : Nat) :
    (settle step? n e).value = e := by
  cases n with
  | zero => rfl
  | succ n => rw [settle, h]

theorem settle_of_some {step? : Expr → Option Expr} (h : step? e = some r) (n : Nat) :
    (settle step? (n + 1) e).value = (settle step? n r).value := by
  rw [settle, h]

theorem withoutLiterals_idem (items : List Expr) :
    withoutLiterals (withoutLiterals items) = withoutLiterals items := by
  induction items with
  | nil => rfl
  | cons a items ih =>
    cases items with
    | nil => rfl
    | cons b items =>
      rw [withoutLiterals_cons_cons]
      split
      · exact ih
      · rename_i hl
        obtain ⟨kept, last, hk, -⟩ := withoutLiterals_cons b items
        rw [hk] at ih ⊢
        rw [withoutLiterals, if_neg hl, ih]
        simp

/-- A pruned node of children that are normal may be folded, and nothing else. -/
theorem Pruning.simplify?_eq (h : Pruning truth e r)
    (hn : ∀ c ∈ e.children, simplify? value? truth level c.2 = none) :
    simplify? value? truth level r = r.folded? value? := by
  -- No step applies to a normal child, and folding is one.
  have hchild {x : Expr} (hx : (Entry.here, x) ∈ e.children) :
      simplify? value? truth level x = x.folded? value? := by
    have hs := hn _ hx
    have hf := (Option.or_eq_none_iff.mp hs).1
    rw [hf]
    exact hs
  cases h with
  | branch v t a b =>
    have hat (x : Expr) (hx : (Entry.here, x) ∈ (conditional (.literal v t) a b).children) (u : Ty) :
        simplify? value? truth level (x.atType u) = (x.atType u).folded? value? := by
      unfold atType
      split
      · exact hchild hx
      · rename_i hd
        simp only [simplify?, dropCast?, hd, prune?, ite_self, Option.or_none, Bool.false_eq_true,
          if_false]
    cases truth v
    · exact hat b (by simp [children]) _
    · exact hat a (by simp [children]) _
  | @only items _ ho =>
    refine hchild (List.mem_map_of_mem ?_)
    obtain ⟨a, as, rfl⟩ : ∃ a as, items = a :: as := by
      cases items with
      | nil => cases ho
      | cons a as => exact ⟨a, as, rfl⟩
    obtain ⟨kept, last, hk, hl⟩ := withoutLiterals_cons a as
    rw [ho] at hk
    cases kept with
    | nil =>
      cases hk
      exact List.mem_of_getLast? hl
    | cons k kept => cases kept <;> cases hk
  | @items items hl ho =>
    have hp : prune? truth (.sequence (withoutLiterals items)) = none := by
      rw [prune?, pruneSequence?, withoutLiterals_idem]
      split
      · rename_i h
        exact absurd h (ho _)
      · exact if_neg (Nat.lt_irrefl _)
    simp only [simplify?, dropCast?, hp, ite_self, Option.or_none]
  | before first v t => exact hchild (by simp [children])
  | decided =>
    rw [simplify?_literal]
    rfl
  | rest => exact hchild (by simp [children])

/-- What becomes of a node with simplified children. -/
inductive Settled (value? : Expr → Option Value) (truth : Value → Bool) : Expr → Expr → Prop where
  | kept (e : Expr) : Settled value? truth e e
  | folded {e r : Expr} (h : e.folded? value? = some r) : Settled value? truth e r
  | uncast {r : Expr} (h : r.holdsType = true) : Settled value? truth (.cast r.type r) r
  | pruned {e r : Expr} (h : Pruning truth e r) : Settled value? truth e r
  | prunedFolded {e z r : Expr} (h : Pruning truth e z) (hf : z.folded? value? = some r) :
    Settled value? truth e r

theorem settle_folded {n : Nat} (h : e.folded? value? = some r) :
    (settle (simplify? value? truth level) (n + 1) e).value = r := by
  have hs : simplify? value? truth level e = some r := by
    rw [simplify?, h]
    rfl
  rw [settle_of_some hs]
  obtain ⟨-, -, v, w, -, -, -, rfl⟩ := folded?_spec h
  exact settle_of_none (simplify?_literal w _) n

theorem simplified_settled (e : Expr) :
    Settled value? truth (e.simplifiedChildren value? truth level)
      (e.simplified value? truth level) := by
  have hn : ∀ c ∈ (e.simplifiedChildren value? truth level).children,
      simplify? value? truth level c.2 = none := by
    intro c hc
    rw [children_mapChildren] at hc
    obtain ⟨x, -, rfl⟩ := List.mem_map.mp hc
    exact simplified_normal x.2
  rw [simplified_eq]
  have hp := size_pos (e.simplifiedChildren value? truth level)
  generalize e.simplifiedChildren value? truth level = x at hn hp ⊢
  obtain ⟨n, hsize⟩ : ∃ n, x.size = n + 1 := ⟨x.size - 1, by omega⟩
  rw [hsize]
  cases hs : simplify? value? truth level x with
  | none =>
    rw [settle_of_none hs]
    exact .kept x
  | some z =>
    -- The first step decides. After a fold or a dropped cast no other applies, after pruning only a fold.
    rcases simplify?_spec hs with hf | ⟨-, hd⟩ | ⟨-, -, hz⟩
    · rw [settle_folded hf]
      exact .folded hf
    · obtain ⟨rfl, ht⟩ := dropCast?_spec hd
      have hz : simplify? value? truth level z = none := hn (.here, z) List.mem_cons_self
      rw [settle_of_some hs, settle_of_none hz]
      exact .uncast ht
    · rw [settle_of_some hs]
      have he := hz.simplify?_eq hn
      cases hf : z.folded? value? with
      | none =>
        rw [settle_of_none (he.trans hf)]
        exact .pruned hz
      | some r =>
        rw [settle_folded hf]
        exact .prunedFolded hz hf

end Expr

end ExprCore
