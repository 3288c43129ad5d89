import ExprCore.Proofs.Contexts

/-!
Passes that change nothing. A pass hands back the very node it was given if and only if no node of the
tree, in its own context, is changed by the rule of the pass; for this, a rule must not alter a node
without saying so.
-/

namespace ExprCore
set_option autoImplicit false

namespace Pass

open ExprCore.Expr (Within)

variable {γ : Type} (p : Pass γ) (c : γ)

/-- The rule of the pass tells of every change that it makes. -/
def Honest : Prop := ∀ c e, (p.rule c e).changed = false → (p.rule c e).value = e

theorem changed_reviseAll (es : List Expr) :
    (p.reviseAll c es).changed = es.any fun e => (p.revise c e).changed := by
  induction es with
  | nil => rfl
  | cons e es ih =>
    simp only [reviseAll, Revised.changed_bind, Revised.changed_pure, Bool.or_false, ih,
      List.any_cons]

theorem changed_reviseEntries (xs : List (Expr × Expr)) :
    (p.reviseEntries c xs).changed =
      xs.any fun x => (p.revise c x.1).changed || (p.revise c x.2).changed := by
  induction xs with
  | nil => rfl
  | cons x xs ih =>
    simp only [reviseEntries, Revised.changed_bind, Revised.changed_pure, Bool.or_false, ih,
      List.any_cons, Bool.or_assoc]

theorem changed_revise (e : Expr) :
    (p.revise c e).changed =
      (e.children.any (fun x => (p.revise (p.enter c x.1) x.2).changed) ||
        (p.rule c (e.mapChildren fun entry x => (p.revise (p.enter c entry) x).value)).changed) := by
  cases e <;>
    simp [revise, value_reviseAll, value_reviseEntries, changed_reviseAll, changed_reviseEntries,
      Expr.mapChildren, Expr.children, enter, List.any_flatMap, List.any_map, Function.comp_def,
      Bool.or_assoc]

variable {p} {c} {e : Expr}

theorem children_unchanged (h : (p.revise c e).changed = false) {x : Entry × Expr}
    (hx : x ∈ e.children) : (p.revise (p.enter c x.1) x.2).changed = false := by
  rw [changed_revise] at h
  have hc := (Bool.or_eq_false_iff.mp h).1
  exact Bool.eq_false_iff.mpr (List.any_eq_false.mp hc x hx)

theorem rule_of_children
    (h : ∀ x ∈ e.children, (p.revise (p.enter c x.1) x.2).value = x.2) :
    p.rule c (e.mapChildren fun entry x => (p.revise (p.enter c entry) x).value) = p.rule c e := by
  have hm : e.mapChildren (fun entry x => (p.revise (p.enter c entry) x).value) = e :=
    (Expr.mapChildren_congr h).trans (Expr.mapChildren_id e)
  rw [hm]

theorem value_of_unchanged (hp : p.Honest) (h : (p.revise c e).changed = false) :
    (p.revise c e).value = e := by
  -- By induction on the tree, in all contexts at once, since entering a child changes the context.
  induction e using Expr.childInduction generalizing c with
  | step e ih =>
    have hc (x : Entry × Expr) (hx : x ∈ e.children) :
        (p.revise (p.enter c x.1) x.2).value = x.2 :=
      ih x hx (children_unchanged h hx)
    rw [changed_revise, rule_of_children hc] at h
    rw [value_revise, rule_of_children hc]
    exact hp c e (Bool.or_eq_false_iff.mp h).2

/-- A pass changes nothing exactly where its rule changes no node. -/
theorem changed_eq_false_iff (hp : p.Honest) :
    (p.revise c e).changed = false ↔
      Within p.enter (fun c e => (p.rule c e).changed = false) c e := by
  constructor
  · intro h
    induction e using Expr.childInduction generalizing c with
    | step e ih =>
      have hc (x : Entry × Expr) (hx : x ∈ e.children) := children_unchanged h hx
      refine .intro ?_ fun x hx => ih x hx (hc x hx)
      rw [changed_revise, rule_of_children fun x hx => value_of_unchanged hp (hc x hx)] at h
      exact (Bool.or_eq_false_iff.mp h).2
  · intro h
    induction h with
    | @intro c e he _ ih =>
      rw [changed_revise, rule_of_children fun x hx => value_of_unchanged hp (ih x hx), he,
        Bool.or_false]
      apply List.any_eq_false.mpr
      intro x hx
      rw [ih x hx]
      exact Bool.false_ne_true

end Pass

end ExprCore
