import ExprCore.Proofs.SameOutcome

/-!
Optimization of trees whose literals hold containers. A literal is shared by all evaluations of its
tree, so that its container may change between optimization and evaluation. This does no harm as long as
no node is decided by a look into the container.
-/

namespace ExprCore
set_option autoImplicit false

open Filter

namespace Expr

variable {host : Host} {fuel level : Nat} {s s' : Store} {layouts : List Layout} {e r : Expr}

theorem value?_rough (host : Host) (fuel : Nat) (s s' : Store) (he : e.isConstant = true)
    (hs : Everywhere (fun _ => Sound) layouts e) :
    Option.Rel (fun v v' => ∃ ρ, Value.Rough e.exposes ρ v v') (e.value? host fuel s)
      (e.value? host fuel s') := by
  let C := Correspondence.apart false (fun _ => True) fun _ _ h => h
  have hfuel : C.Fuels fuel fun _ => fuel := Eventually.of_forall fun _ => rfl
  have hr : Correspondence.Runs (C := C) Links.none (Value.Rough e.exposes)
      (ExprCore.eval host fuel [] e) fun _ => ExprCore.eval host fuel [] e :=
    Correspondence.runs_constant hfuel he hs
  rcases hr Links.none le_rfl s s' (Correspondence.good_apart trivial) with ⟨hlax, -⟩ | ⟨r, hr, hends⟩
  · cases hlax
  · obtain ⟨_, rfl⟩ := hr.exists
    change Correspondence.Ends _ _ ((ExprCore.eval host fuel [] e).run s)
      ((ExprCore.eval host fuel [] e).run s') at hends
    unfold value?
    generalize (ExprCore.eval host fuel [] e).run s = q, (ExprCore.eval host fuel [] e).run s' = q'
      at hends
    cases hends with
    | ok _ _ hv => exact .some ⟨_, hv⟩
    | error => exact .none

theorem folded?_congr {value? value?' : Expr → Option Value} {held : Bool}
    (h : e.isConstant = true →
      Option.Rel (fun v v' => ∃ ρ, Value.Rough held ρ v v') (value? e) (value?' e)) :
    e.folded? value? = e.folded? value?' := by
  unfold folded?
  split
  · rfl
  · rename_i hc
    simp only [Bool.or_eq_true, Bool.not_eq_true', not_or, Bool.not_eq_false] at hc
    have hv := h hc.1.2
    generalize value? e = q, value?' e = q' at hv
    cases hv with
    | none => rfl
    | @some v v' hv =>
      obtain ⟨ρ, hv⟩ := hv
      cases hp : v.isContainer with
      | false =>
        rcases hv with hv | ⟨-, rfl⟩
        · rw [hv.eq_of_plain hp]
        · rfl
      | true =>
        have hn {u : Value} (hu : u.isContainer = true) : u.isImmutable = false := by
          cases u <;> first | rfl | cases hu
        have hp' : v'.isContainer = true := by
          rcases hv with hv | ⟨-, rfl⟩
          · exact hv.isContainer_eq.symm.trans hp
          · exact hp
        simp only [hn hp, hn hp', Bool.false_eq_true, if_false]

theorem folded?_eq (s s' : Store) (hs : Everywhere (fun _ => Sound) layouts e) :
    e.folded? (value? host fuel s) = e.folded? (value? host fuel s') :=
  folded?_congr fun he => value?_rough host fuel s s' he hs

theorem prune?_congr {truth truth' : Value → Bool}
    (h : ∀ c, e.decider? = some c → ∀ v, c.literal? = some v → truth v = truth' v) :
    e.prune? truth = e.prune? truth' := by
  cases e with
  | conditional c a b =>
    simp only [prune?]
    cases hv : c.literal? with
    | none => rfl
    | some v => rw [Option.map_some, Option.map_some, h c rfl v hv]
  | logical op a b =>
    simp only [prune?]
    cases hv : a.literal? with
    | none => rfl
    | some v => rw [Option.bind_some, Option.bind_some, h a rfl v hv]
  | _ => rfl

/-- What decides a node is no container, so that it decides the node in all stores. -/
theorem prune?_eq (s s' : Store) (hs : e.Sound) : e.prune? (Value.truth s) = e.prune? (Value.truth s') := by
  apply prune?_congr
  intro c hc v hv
  obtain ⟨t, rfl⟩ := literal?_eq_some hv
  exact Value.truth_eq_of_plain (exposes_of_decider? hc hs.discreet) s s'

theorem simplify?_eq (s s' : Store) (hs : Everywhere (fun _ => Sound) layouts e) :
    e.simplify? (value? host fuel s) (Value.truth s) level =
      e.simplify? (value? host fuel s') (Value.truth s') level := by
  rw [simplify?, simplify?, folded?_eq s s' hs, prune?_eq s s' hs.holds]

end Expr

namespace Sample

def listing (items : List Value) : Store := { sequences := #[items] }

def list : Expr := .literal (.list 0) (.list .any)

end Sample

end ExprCore
