import ExprCore.Proofs.Simplification

/-!
Which trees simplification may turn into constants, and which of these have a container for a value.
A container is never folded, but a node may be folded whose operands are containers.
-/

namespace ExprCore
set_option autoImplicit false

namespace Expr

mutual

def foldable : Expr → Bool
  | .literal .. => true
  | .operator _ op operands => op.isPure && allFoldable operands
  | .logical _ lhs _ => lhs.foldable
  | .conditional cond thenBranch elseBranch =>
    cond.foldable && (thenBranch.foldable || elseBranch.foldable)
  | .sequence items => allFoldable items
  | .before first second => first.foldable && second.foldable
  | .cast _ operand | .instanceOf operand _ => operand.foldable
  | _ => false

def allFoldable : List Expr → Bool
  | [] => true
  | e :: es => e.foldable && allFoldable es

end

mutual

/-- True for the trees that simplification may turn into constants whose value is a container, one
that a literal of the tree holds. -/
def exposes : Expr → Bool
  | .literal v _ => v.isContainer
  | .logical _ lhs rhs => lhs.foldable && rhs.exposes
  | .conditional cond thenBranch elseBranch =>
    cond.foldable && (thenBranch.exposes || elseBranch.exposes)
  | .sequence items => allFoldable items && lastExposes items
  | .before first second => first.exposes && second.foldable
  | .cast _ operand => operand.exposes
  | _ => false

def lastExposes : List Expr → Bool
  | [] => false
  | [e] => e.exposes
  | _ :: es => lastExposes es

end

/-- True for the nodes that simplification may decide by a look into a container. -/
def readsContainer : Expr → Bool
  | .operator _ op operands => op.isPure && operands.all foldable && operands.any exposes
  | .logical _ lhs rhs => lhs.exposes || lhs.foldable && rhs.exposes
  | .conditional cond _ _ => cond.exposes
  | _ => false

/-- The child whose truth decides a node. -/
def decider? : Expr → Option Expr
  | .conditional cond _ _ => some cond
  | .logical _ lhs _ => some lhs
  | _ => none

variable {value? : Expr → Option Value} {truth : Value → Bool} {e r : Expr}

theorem plain_of_isImmutable {v : Value} (h : v.isImmutable = true) : v.isContainer = false := by
  cases v <;> first | rfl | cases h

theorem allFoldable_eq_all (es : List Expr) : allFoldable es = es.all foldable := by
  induction es with
  | nil => rfl
  | cons e es ih => rw [allFoldable, ih, List.all_cons]

theorem lastExposes_append (items : List Expr) (last : Expr) :
    lastExposes (items ++ [last]) = last.exposes := by
  induction items with
  | nil => rfl
  | cons a items ih =>
    cases items with
    | nil => rfl
    | cons b items => exact ih

theorem lastExposes_withoutLiterals (items : List Expr) :
    lastExposes (withoutLiterals items) = lastExposes items := by
  cases items with
  | nil => rfl
  | cons a items =>
    obtain ⟨kept, last, hk, hl⟩ := withoutLiterals_cons a items
    obtain ⟨front, hf⟩ := List.getLast?_eq_some_iff.mp hl
    rw [hk, hf, lastExposes_append, lastExposes_append]

theorem allFoldable_withoutLiterals (items : List Expr) :
    allFoldable (withoutLiterals items) = allFoldable items := by
  induction items with
  | nil => rfl
  | cons a items ih =>
    cases items with
    | nil => rfl
    | cons b items =>
      rw [withoutLiterals_cons_cons]
      split
      · rename_i ha
        obtain ⟨v, hv⟩ := Option.isSome_iff_exists.mp ha
        obtain ⟨t, rfl⟩ := literal?_eq_some hv
        rw [ih, allFoldable.eq_def (_ :: b :: items)]
        rfl
      · rw [allFoldable, allFoldable, ih]

theorem foldable_of_isConstant (h : e.isConstant = true) : e.foldable = true := by
  have hall {es : List Expr} (ih : ∀ x ∈ es, x.isConstant = true → x.foldable = true)
      (h : allConstant es = true) : allFoldable es = true := by
    rw [allConstant_eq_all, List.all_eq_true] at h
    rw [allFoldable_eq_all, List.all_eq_true]
    exact fun x hx => ih x hx (h x hx)
  induction e using childInduction with
  | step e ih =>
    have here {x : Expr} (hx : (Entry.here, x) ∈ e.children) (h : x.isConstant = true) :
        x.foldable = true := ih (.here, x) hx h
    cases e with
    | literal => rfl
    | operator form op operands =>
      obtain ⟨hop, h⟩ := Bool.and_eq_true_iff.mp h
      exact Bool.and_eq_true_iff.mpr ⟨hop, hall (fun x hx => here (List.mem_map_of_mem hx)) h⟩
    | sequence items => exact hall (fun x hx => here (List.mem_map_of_mem hx)) h
    | logical op a b =>
      exact here (x := a) (by simp [children]) (Bool.and_eq_true_iff.mp h).1
    | conditional c a b =>
      obtain ⟨h, -⟩ := Bool.and_eq_true_iff.mp h
      obtain ⟨hc, ha⟩ := Bool.and_eq_true_iff.mp h
      rw [foldable, here (by simp [children]) hc, here (x := a) (by simp [children]) ha]
      rfl
    | before a b =>
      obtain ⟨ha, hb⟩ := Bool.and_eq_true_iff.mp h
      exact Bool.and_eq_true_iff.mpr ⟨here (by simp [children]) ha, here (by simp [children]) hb⟩
    | cast t x => exact here (x := x) (by simp [children]) h
    | instanceOf x t => exact here (x := x) (by simp [children]) h
    | _ => cases h

theorem foldable_of_exposes (h : e.exposes = true) : e.foldable = true := by
  induction e using childInduction with
  | step e ih =>
    have here {x : Expr} (hx : (Entry.here, x) ∈ e.children) (h : x.exposes = true) :
        x.foldable = true := ih (.here, x) hx h
    cases e with
    | literal => rfl
    | logical op a b => exact (Bool.and_eq_true_iff.mp h).1
    | conditional c a b =>
      simp only [exposes, foldable, Bool.and_eq_true, Bool.or_eq_true] at h ⊢
      exact h.imp_right <| Or.imp (here (x := a) (by simp [children]))
        (here (x := b) (by simp [children]))
    | sequence items => exact (Bool.and_eq_true_iff.mp h).1
    | before a b =>
      exact Bool.and_eq_true_iff.mpr <|
        (Bool.and_eq_true_iff.mp h).imp_left (here (x := a) (by simp [children]))
    | cast t x => exact here (x := x) (by simp [children]) h
    | _ => cases h

/-- A tree that simplification may make a constant, or a container, no sooner than another tree. -/
structure Dims (r e : Expr) : Prop where
  foldable : r.foldable = true → e.foldable = true
  exposes : r.exposes = true → e.exposes = true

namespace Dims

theorem rfl (e : Expr) : Dims e e := ⟨id, id⟩

theorem trans {q : Expr} (h : Dims q r) (h' : Dims r e) : Dims q e :=
  ⟨fun hq => h'.foldable (h.foldable hq), fun hq => h'.exposes (h.exposes hq)⟩

theorem literal {v : Value} (hv : v.isContainer = false) (t : Ty) (he : e.foldable = true) :
    Dims (.literal v t) e :=
  ⟨fun _ => he, fun h => by rw [Expr.exposes, hv] at h; cases h⟩

theorem allFoldable {f : Expr → Expr} {es : List Expr} (h : ∀ x ∈ es, Dims (f x) x)
    (hs : Expr.allFoldable (es.map f) = true) : Expr.allFoldable es = true := by
  rw [allFoldable_eq_all, List.all_eq_true] at hs ⊢
  exact fun x hx => (h x hx).foldable (hs _ (List.mem_map_of_mem hx))

theorem lastExposes {f : Expr → Expr} {es : List Expr} (h : ∀ x ∈ es, Dims (f x) x)
    (hs : Expr.lastExposes (es.map f) = true) : Expr.lastExposes es = true := by
  induction es with
  | nil => exact hs
  | cons a es ih =>
    cases es with
    | nil => exact (h a List.mem_cons_self).exposes hs
    | cons b es => exact ih (fun x hx => h x (List.mem_cons_of_mem a hx)) hs

theorem mapChildren {f : Entry → Expr → Expr} (h : ∀ c ∈ e.children, Dims (f c.1 c.2) c.2) :
    Dims (e.mapChildren f) e := by
  have here {x : Expr} (hx : (Entry.here, x) ∈ e.children) : Dims (f .here x) x := h _ hx
  cases e with
  | operator form op operands =>
    refine ⟨fun hs => ?_, fun hs => by cases hs⟩
    obtain ⟨hop, hs⟩ := Bool.and_eq_true_iff.mp hs
    exact Bool.and_eq_true_iff.mpr ⟨hop, allFoldable (fun x hx => here (List.mem_map_of_mem hx)) hs⟩
  | sequence items =>
    have hi (x) (hx : x ∈ items) : Dims (f .here x) x := here (List.mem_map_of_mem hx)
    refine ⟨allFoldable hi, fun hs => ?_⟩
    obtain ⟨ha, hl⟩ := Bool.and_eq_true_iff.mp hs
    exact Bool.and_eq_true_iff.mpr ⟨allFoldable hi ha, lastExposes hi hl⟩
  | logical op a b =>
    have ha : Dims (f .here a) a := here (by simp [children])
    have hb : Dims (f .here b) b := here (by simp [children])
    exact ⟨ha.foldable, fun hs => Bool.and_eq_true_iff.mpr <|
      (Bool.and_eq_true_iff.mp hs).imp ha.foldable hb.exposes⟩
  | conditional c a b =>
    have hc : Dims (f .here c) c := here (by simp [children])
    have ha : Dims (f .here a) a := here (by simp [children])
    have hb : Dims (f .here b) b := here (by simp [children])
    simp only [Expr.mapChildren]
    refine ⟨fun hs => ?_, fun hs => ?_⟩ <;>
      simp only [Expr.foldable, Expr.exposes, Bool.and_eq_true, Bool.or_eq_true] at hs ⊢
    · exact hs.imp hc.foldable (Or.imp ha.foldable hb.foldable)
    · exact hs.imp hc.foldable (Or.imp ha.exposes hb.exposes)
  | before a b =>
    have ha : Dims (f .here a) a := here (by simp [children])
    have hb : Dims (f .here b) b := here (by simp [children])
    exact ⟨fun hs => Bool.and_eq_true_iff.mpr ((Bool.and_eq_true_iff.mp hs).imp ha.foldable hb.foldable),
      fun hs => Bool.and_eq_true_iff.mpr ((Bool.and_eq_true_iff.mp hs).imp ha.exposes hb.foldable)⟩
  | cast t x =>
    have hx : Dims (f .here x) x := here (by simp [children])
    exact ⟨hx.foldable, hx.exposes⟩
  | instanceOf x t =>
    have hx : Dims (f .here x) x := here (by simp [children])
    exact ⟨hx.foldable, fun hs => by cases hs⟩
  | _ => exact ⟨id, id⟩

theorem atType {x : Expr} {t : Ty} (h : Dims x e) : Dims (x.atType t) e := by
  unfold Expr.atType
  split
  · exact h
  · exact ⟨h.foldable, h.exposes⟩

end Dims

theorem exposes_of_decider? {c : Expr} (hc : e.decider? = some c) (he : e.readsContainer = false) :
    c.exposes = false := by
  cases e with
  | conditional => cases hc; exact he
  | logical => cases hc; exact (Bool.or_eq_false_iff.mp he).1
  | _ => cases hc

theorem Pruning.dims (h : Pruning truth e r) : Dims r e := by
  cases h with
  | branch v t a b =>
    refine Dims.atType ⟨fun hs => ?_, fun hs => ?_⟩ <;>
      simp only [foldable, exposes, Bool.true_and, Bool.or_eq_true] <;>
      cases hv : truth v <;> rw [hv] at hs
    · exact .inr hs
    · exact .inl hs
    · exact .inr hs
    · exact .inl hs
  | @only items _ ho =>
    have ha := allFoldable_withoutLiterals items
    have hl := lastExposes_withoutLiterals items
    rw [ho] at ha hl
    simp only [allFoldable, Bool.and_true] at ha
    refine ⟨fun hs => ha.symm.trans hs, fun hs => Bool.and_eq_true_iff.mpr ⟨?_, hl.symm.trans hs⟩⟩
    exact ha.symm.trans (foldable_of_exposes hs)
  | items =>
    refine ⟨fun hs => ?_, fun hs => ?_⟩ <;> simpa only [foldable, exposes,
      allFoldable_withoutLiterals, lastExposes_withoutLiterals] using hs
  | before first v t =>
    refine ⟨fun hs => ?_, fun hs => ?_⟩
    · rw [foldable, hs]
      rfl
    · rw [exposes, hs]
      rfl
  | decided => exact .literal rfl _ rfl
  | rest t hd hr => exact ⟨fun _ => rfl, id⟩

theorem Settled.dims (h : Settled value? truth e r) : Dims r e := by
  have hfolded {z : Expr} (h : z.folded? value? = some r) : Dims r z := by
    obtain ⟨-, hc, v, w, -, hv, hw, rfl⟩ := folded?_spec h
    exact .literal (Ty.plain_of_cast (plain_of_isImmutable hv) hw) _ (foldable_of_isConstant hc)
  cases h with
  | kept => exact .rfl _
  | folded h => exact hfolded h
  | uncast => exact ⟨id, id⟩
  | pruned h => exact h.dims
  | prunedFolded h hf => exact (hfolded hf).trans h.dims

end Expr

end ExprCore
