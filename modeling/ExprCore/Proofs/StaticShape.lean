import ExprCore.Host.Classes
import ExprCore.Proofs.Contexts

/-!
What optimization keeps of a tree that is never run: the static type, and that whatever is written to
can be written to. Simplification replaces nodes that only compute, and none of these is a target.
-/

namespace ExprCore
set_option autoImplicit false

namespace Expr

/-- Whatever an assignment, simple or compound, a declaration, an increment or a handler of the tree
writes to is a place or a free name, as the constructors demand. -/
abbrev Targeted (e : Expr) : Prop :=
  Everywhere (fun _ e => ∀ target ∈ e.targets, target.isAssignable = true) [] e

variable {value? : Expr → Option Value} {truth : Value → Bool} {f : Expr → Expr}

theorem Simplifies.isAssignable (hf : Simplifies value? truth f) {target : Expr}
    (h : target.isAssignable = true) : (f target).isAssignable = true := by
  -- Only nodes that compute are replaced, and no place and no name does.
  have hc : target.computes = false := by
    apply Bool.eq_false_iff.mpr
    intro hc
    rw [isAssignable_of_computes hc] at h
    cases h
  rw [hf.eq_of_not_computes hc, isAssignable_mapChildren]
  exact h

theorem Simplifies.targeted (hf : Simplifies value? truth f) {e : Expr} (h : e.Targeted) :
    (f e).Targeted := by
  apply Within.iff_everywhere.mp
  refine (Within.iff_everywhere.mpr h).simplified hf (fun _ => rfl) ?_ ?_ ?_ ?_
  · intro _ v t _ _ target ht
    cases ht
  · intro _ t x target ht
    cases ht
  · intro _ items target ht
    cases ht
  · intro layouts x hx _ target ht
    rw [targets_mapChildren] at ht
    obtain ⟨old, hold, rfl⟩ := List.mem_map.mp ht
    exact hf.isAssignable (hx.holds old hold)

end Expr

/-- Optimization, at every level, keeps the static type of every tree, and leaves every target of an
assignment a place or a free name. -/
theorem optimize_static_shape (host : Host) (fuel level : Nat) (s : Store) (t : Expr) :
    (t.optimize host fuel level s).value.type = t.type ∧
      (t.Targeted → (t.optimize host fuel level s).value.Targeted) := by
  have hf := Expr.simplifies_optimize host fuel level s
  constructor
  · exact hf.type_eq t
  · intro ht
    exact hf.targeted ht

namespace Sample

/-- An element that is assigned to, under a handler that counts. The index is a constant, and the value
that is picked for the element fails. -/
def updating : Expr :=
  .tryCatch
    (.assign .assign
      (.index (.name "xs")
        (.operator .binary (.arith .add) [.literal (.int 1) .int, .literal (.int 2) .int]))
      (.conditional (.literal (.bool true) .bool)
        (.operator .binary (.arith .div) [.literal (.int 1) .int, .literal (.int 0) .int])
        (.name "y")))
    (.name "problem") (.step .postInc (.name "count"))

def updated : Expr :=
  .tryCatch
    (.assign .assign (.index (.name "xs") (.literal (.int 3) .int))
      (.cast .any
        (.operator .binary (.arith .div) [.literal (.int 1) .int, .literal (.int 0) .int])))
    (.name "problem") (.step .postInc (.name "count"))

theorem targeted_updating : updating.Targeted := by
  refine .node ?_ ⟨.node ?_ ⟨.node nofun ?_, .node nofun ?_⟩, .node nofun trivial, .node ?_ ?_⟩
  · intro target ht
    obtain rfl := List.mem_singleton.mp ht
    rfl
  · intro target ht
    obtain rfl := List.mem_singleton.mp ht
    rfl
  · exact ⟨.node nofun trivial, .node nofun ⟨.node nofun trivial, .node nofun trivial⟩⟩
  · exact ⟨.node nofun trivial, .node nofun ⟨.node nofun trivial, .node nofun trivial⟩,
      .node nofun trivial⟩
  · intro target ht
    obtain rfl := List.mem_singleton.mp ht
    rfl
  · exact .node nofun trivial

end Sample

open Sample in
theorem optimize_static_shape_updating :
    (updating.optimize (standardHost 0) 9 2 {}).value = updated ∧ updated.type = updating.type ∧
      updating.Targeted ∧ updated.Targeted := by
  have hu : (updating.optimize (standardHost 0) 9 2 {}).value = updated := rfl
  obtain ⟨htype, htargets⟩ := optimize_static_shape (standardHost 0) 9 2 {} updating
  rw [hu] at htype htargets
  exact ⟨hu, htype, targeted_updating, htargets targeted_updating⟩

end ExprCore
