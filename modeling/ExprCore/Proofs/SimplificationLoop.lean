import ExprCore.Proofs.ConstantEnds

/-!
The end of simplification. A step that is taken at a node leaves a literal, which has no further step, or a smaller
tree, so that the node itself bounds how many steps there are. What may go on for ever is a single step: it
evaluates a constant, and the text of a list that contains itself has no end.
-/

namespace ExprCore
set_option autoImplicit false

open Filter

namespace Expr

variable {host : Host} {level n : Nat} {s : Store} {e r x : Expr}

/-- How a step of simplification at a node may end: with another tree, or with none if no step applies. It does not
end if the evaluation that it tries does not. -/
inductive StepEnds (host : Host) (level : Nat) (s : Store) (e : Expr) : Option Expr → Prop where
  | intro {n : Nat} (h : e.isAhead = true → Run.Finished (ExprCore.eval host n [] e s)) :
    StepEnds host level s e (e.simplify? (value? host n s) (Value.truth s) level)

inductive Steps (host : Host) (level : Nat) (s : Store) : Nat → Expr → Expr → Prop where
  | done (e : Expr) : Steps host level s 0 e e
  | step {n : Nat} {e x r : Expr} (h : StepEnds host level s e (some x)) (hs : Steps host level s n x r) :
    Steps host level s (n + 1) e r

/-! ### Steps that end -/

/-- The fuel on which a step ends decides nothing else. -/
theorem simplify?_stable {m : Nat} (hnm : n ≤ m) (h : e.isAhead = true → Run.Finished (ExprCore.eval host n [] e s)) :
    e.simplify? (value? host m s) (Value.truth s) level = e.simplify? (value? host n s) (Value.truth s) level := by
  have hfolded : e.folded? (value? host m s) = e.folded? (value? host n s) := by
    by_cases he : e.isAhead = true
    · have hvalue : e.value? host m s = e.value? host n s := by
        unfold value? EStateM.run
        rw [eval_stable (isConstant_of_isAhead he) hnm (h he)]
      rw [folded?, folded?, hvalue]
    · rw [folded?_of_not_ahead he, folded?_of_not_ahead he]
  rw [simplify?, simplify?, hfolded]

theorem StepEnds.eventually {o : Option Expr} (h : StepEnds host level s e o) :
    ∀ᶠ k in atTop, e.simplify? (value? host k s) (Value.truth s) level = o := by
  obtain ⟨h⟩ := h
  exact (eventually_ge_atTop _).mono fun k hk => simplify?_stable hk h

theorem StepEnds.unique {o o' : Option Expr} (h : StepEnds host level s e o) (h' : StepEnds host level s e o') :
    o = o' := by
  obtain ⟨k, hk, hk'⟩ := (h.eventually.and h'.eventually).exists
  exact hk.symm.trans hk'

namespace Steps

end Steps

/-! ### Trees without cycles -/

/-- The empty sequence folds and does not get smaller. -/
example : (sequence []).simplify? (fun _ => some .void) (fun _ => false) 1 = some (.literal .void .void) ∧
    (sequence []).size = (literal .void .void).size := ⟨rfl, rfl⟩

end Expr

namespace Sample

end Sample

open Sample

end ExprCore
