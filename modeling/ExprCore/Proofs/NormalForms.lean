import ExprCore.Proofs.Revision
import ExprCore.Proofs.UnalteredContainers

/-!
Normal forms. No step of simplification applies to a node of an optimized tree, whether the node was
kept, picked from a branch or made on the way, so that optimizing the tree once more hands it back.
-/

namespace ExprCore
set_option autoImplicit false

namespace Expr

variable {value? : Expr → Option Value} {truth : Value → Bool} {level level' : Nat}
  {layouts : List Layout} {e r : Expr}

theorem Settled.children {p : List Layout → Expr → Prop} (h : Settled value? truth e r)
    (hc : ∀ x ∈ e.children, Everywhere p (x.1.push layouts) x.2) :
    ∀ x ∈ r.children, Everywhere p (x.1.push layouts) x.2 := by
  have literal {v : Value} {t : Ty} :
      ∀ x ∈ (Expr.literal v t).children, Everywhere p (x.1.push layouts) x.2 := nofun
  have child {x : Expr} (hx : (Entry.here, x) ∈ e.children) :
      ∀ y ∈ x.children, Everywhere p (y.1.push layouts) y.2 := fun y hy => (hc _ hx).child hy
  have folded {z : Expr} (h : z.folded? value? = some r) :
      ∀ x ∈ r.children, Everywhere p (x.1.push layouts) x.2 := by
    obtain ⟨-, -, v, w, -, -, -, rfl⟩ := folded?_spec h
    exact literal
  cases h with
  | kept => exact hc
  | folded h => exact folded h
  | uncast => exact child List.mem_cons_self
  | prunedFolded _ h => exact folded h
  | pruned h =>
    cases h with
    | branch v t a b =>
      have hat {x : Expr} (hx : (Entry.here, x) ∈ (conditional (.literal v t) a b).children) (u : Ty) :
          ∀ y ∈ (x.atType u).children, Everywhere p (y.1.push layouts) y.2 := by
        unfold atType
        split
        · exact child hx
        · intro y hy
          obtain rfl := List.mem_singleton.mp hy
          exact hc _ hx
      cases truth v
      · exact hat (by simp [Expr.children]) _
      · exact hat (by simp [Expr.children]) _
    | only ho => exact child (List.mem_map_of_mem (mem_of_mem_withoutLiterals (by simp [ho])))
    | items =>
      intro y hy
      obtain ⟨x, hx, rfl⟩ := List.mem_map.mp hy
      exact hc _ (List.mem_map_of_mem (mem_of_mem_withoutLiterals hx))
    | before => exact child List.mem_cons_self
    | decided => exact literal
    | rest => exact child (by simp [Expr.children])

end Expr

namespace Sample

def failing : Expr :=
  .operator .binary (.arith .div) [.literal (.int 1) .int, .literal (.int 0) .int]

/-- The same after optimization: the picked branch, at the type that both branches had. -/
def decided : Expr := .sequence [.apply (.name "f") [list], .cast .any failing]

def later : Store := { cells := #[.int 1], sequences := #[[.int 7], []] }

theorem selfContained_listing : (listing [.int 7]).SelfContained where
  items items hi v hv := by
    obtain rfl : items = [.int 7] := by simpa [listing] using hi
    obtain rfl := List.mem_singleton.mp hv
    exact .plain rfl
  entries _ he := absurd he (Array.not_mem_empty _)

end Sample

end ExprCore
