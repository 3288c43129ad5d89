import ExprCore.Proofs.Likeness.Nodes
import ExprCore.Proofs.Resolution

/-!
Evaluation of two trees that differ below a node only. Whatever is done to the children of a node,
the two results evaluate alike if the children do, if bodies of functions stand for each other once
they are bound, and if the node has the same static type on both sides.
-/

namespace ExprCore
set_option autoImplicit false

/-- A node that may be evaluated in frames with the given layouts: its slot has the type of its
binding, it assigns to what can be assigned to, its containers are known from the start, and the
operation that it applies does the same with like operands. -/
def Expr.Fits (strict : Bool) (known : Links) (layouts : List Layout) : Expr → Prop
  | .literal v _ => Value.Like known v v
  | .var b => b.Fits layouts
  | .lambda signature _ => KnownDefaults known signature.params
  | e => (∀ op, e.operation? = some op → op.Uniform strict known) ∧
    ∀ target ∈ e.targets, target.isAssignable = true

variable {strict : Bool}

theorem Expr.Fits.operation {known : Links} {layouts : List Layout} {e : Expr} {op : Operation}
    (h : e.Fits strict known layouts) (ho : e.operation? = some op) : op.Uniform strict known := by
  cases e with
  | literal | var | lambda => cases ho
  | _ => exact h.1 op ho

theorem Expr.Fits.target {known : Links} {layouts : List Layout} {e target : Expr}
    (h : e.Fits strict known layouts) (ht : target ∈ e.targets) : target.isAssignable = true := by
  cases e with
  | literal | var | lambda => cases ht
  | _ => exact h.2 target ht

theorem Expr.Fits.mapChildren {known : Links} {layouts : List Layout} {e : Expr}
    {f : Entry → Expr → Expr} (h : e.Fits strict known layouts)
    (hf : ∀ target ∈ e.targets, target.isAssignable = true → (f .here target).isAssignable = true) :
    (e.mapChildren f).Fits strict known layouts := by
  have ht (hall : ∀ target ∈ e.targets, target.isAssignable = true) :
      ∀ target ∈ (e.mapChildren f).targets, target.isAssignable = true := by
    intro target hm
    rw [Expr.targets_mapChildren] at hm
    obtain ⟨t, ht, rfl⟩ := List.mem_map.mp hm
    exact hf t ht (hall t ht)
  have ho (hall : ∀ op, e.operation? = some op → op.Uniform strict known) :
      ∀ op, (e.mapChildren f).operation? = some op → op.Uniform strict known := by
    rwa [Expr.operation?_mapChildren]
  cases e with
  | literal | var | lambda => exact h
  | _ => exact ⟨ho h.1, ht h.2⟩

theorem Expr.resolve_fits {known : Links} {layouts : List Layout} {e : Expr}
    (h : Everywhere (Fits strict known) layouts e) (maxLevel : Nat) {scope : Scope}
    (hs : scope.layouts = layouts) :
    Everywhere (Fits strict known) layouts (e.resolve maxLevel scope).value := by
  induction h generalizing scope with
  | intro he _ ih =>
    subst hs
    rcases resolve_cases maxLevel scope _ with ⟨b, hb, hr, -⟩ | hr
    · rw [hr]
      exact .intro hb fun _ hx => by cases hx
    · rw [hr]
      refine .mapChildren (he.mapChildren fun t _ => isAssignable_resolve) fun x hx => ?_
      exact ih x hx (scope.layouts_enter x.1)

theorem Binding.Fits.cell {known : Links} {w : World known} {env : Env} {b : Binding}
    (hb : b.Fits env.layouts) (he : env.Typed w.cells) {r : Ref}
    (hr : env.cell? b.depth b.address = some r) : w.cells[r]? = some b.type := by
  obtain ⟨frame, hf, hl, rfl⟩ := Env.cell?_eq_some hr
  have hs := List.getElem?_eq_getElem hl
  rw [he frame (List.mem_of_getElem? hf) _ _ hs]
  refine congrArg some (hb frame.layout _ ?_ hs)
  rw [Env.layouts, List.getElem?_map, hf]
  rfl

namespace Pairing

variable {P : Pairing} {m : Machine} {m' : Nat → Machine} {layouts : List Layout}

/-- Trees that evaluate alike in all frames with the given layouts. -/
def Follows (P : Pairing) (m : Machine) (m' : Nat → Machine) (layouts : List Layout)
    (e e' : Expr) : Prop :=
  ∀ (w : World P.known) (env : Env), env.Typed w.cells → env.layouts = layouts →
    P.Steps w m m' env e e'

variable {f g : Entry → Expr → Expr} {x : Expr}

end Pairing

end ExprCore
