import ExprCore.Proofs.Likeness.Operators

/-!
The nodes that only compute, side by side. If the children of two nodes of one kind evaluate alike,
so do the nodes, whatever the correspondence of the stores.
-/

namespace ExprCore
set_option autoImplicit false

namespace Correspondence

variable {C : Correspondence} {w : C.World} {m : Machine} {m' : Nat → Machine} {env env' : Env}
  {e e' a a' b b' : Expr} {es es' : List Expr}

abbrev Steps (C : Correspondence) (w : C.World) (m : Machine) (m' : Nat → Machine) (env env' : Env)
    (e e' : Expr) : Prop :=
  Runs w (fun w => Value.Like (C.links w)) (m.eval env e) fun k => (m' k).eval env' e'

theorem runs_evalAll (h : List.Forall₂ (C.Steps w m m' env env') es es') :
    Runs w (fun w => Value.Likes (C.links w)) (m.evalAll env es)
      fun k => (m' k).evalAll env' es' := by
  induction h with
  | nil => exact .pure fun _ _ => .nil
  | cons h _ ih =>
    refine h.bind fun w₁ hw₁ v v' hv => ?_
    refine (ih.mono hw₁).bind fun w₂ hw₂ vs vs' hvs => ?_
    exact .pure fun w₃ hw₃ => .cons (hv.mono (C.links_mono (hw₂.trans hw₃)))
      (hvs.mono (C.links_mono hw₃))

theorem runs_items {R : C.World → Value → Value → Prop}
    (hR : ∀ {w w' : C.World} {v v' : Value}, w ≤ w' → R w v v' → R w' v v')
    (h : List.Forall₂ (fun e e' => Runs w R (m.eval env e) fun k => (m' k).eval env' e') es es')
    {w₁ : C.World} (hw : w ≤ w₁) {v v' : Value} (hv : R w₁ v v') :
    Runs w₁ R (m.evalSequence env v es) fun k => (m' k).evalSequence env' v' es' := by
  induction h generalizing w₁ v v' with
  | nil => exact .pure fun _ hw => hR hw hv
  | cons h _ ih => exact (h.mono hw).bind fun w₂ hw₂ u u' hu => ih (hw.trans hw₂) hu

theorem runs_evalSequence (h : List.Forall₂ (C.Steps w m m' env env') es es') {w₁ : C.World}
    (hw : w ≤ w₁) {v v' : Value} (hv : Value.Like (C.links w₁) v v') :
    Runs w₁ (fun w => Value.Like (C.links w)) (m.evalSequence env v es)
      fun k => (m' k).evalSequence env' v' es' :=
  runs_items (fun hw h => h.mono (C.links_mono hw)) h hw hv

theorem runs_truthOf (h : C.Steps w m m' env env' e e') :
    Runs w (fun _ p q => p = q) (m.truthOf env e) fun k => (m' k).truthOf env' e' := by
  refine h.bind fun w₁ hw₁ v v' hv => ?_
  refine .get_bind fun w₂ hw₂ s s' hs => ?_
  exact .pure hs ((C.contents hs).truth_eq (hv.mono (C.links_mono hw₂)))

theorem runs_evalLogical (op : Connective) (ha : C.Steps w m m' env env' a a')
    (hb : C.Steps w m m' env env' b b') :
    Runs w (fun w => Value.Like (C.links w)) (m.evalLogical env op a b)
      fun k => (m' k).evalLogical env' op a' b' := by
  refine (runs_truthOf ha).bind ?_
  rintro w₁ hw₁ p _ rfl
  have hr : Runs w₁ (fun w => Value.Like (C.links w)) (.bool <$> m.truthOf env b)
      fun k => .bool <$> (m' k).truthOf env' b' :=
    (runs_truthOf (hb.mono hw₁)).map fun _ _ _ _ h => h ▸ .plain rfl
  cases op <;> cases p
  · exact .value (.plain rfl)
  · exact hr
  · exact hr
  · exact .value (.plain rfl)

theorem runs_evalConditional {cond cond' : Expr} (hc : C.Steps w m m' env env' cond cond')
    (ha : C.Steps w m m' env env' a a') (hb : C.Steps w m m' env env' b b') (t : Ty) :
    Runs w (fun w => Value.Like (C.links w)) (m.evalConditional env cond a b t)
      fun k => (m' k).evalConditional env' cond' a' b' t := by
  refine (runs_truthOf hc).bind ?_
  rintro w₁ hw₁ p _ rfl
  have hp : C.Steps w₁ m m' env env' (if p then a else b) (if p then a' else b') := by
    cases p
    · exact hb.mono hw₁
    · exact ha.mono hw₁
  exact hp.bind fun w₂ _ v v' hv => .ofLike (hv.castNoting _ _)

theorem runs_evalBefore (ha : C.Steps w m m' env env' a a') (hb : C.Steps w m m' env env' b b') :
    Runs w (fun w => Value.Like (C.links w)) (m.evalBefore env a b)
      fun k => (m' k).evalBefore env' a' b' := by
  refine ha.bind fun w₁ hw₁ v v' hv => ?_
  refine (hb.mono hw₁).bind fun w₂ hw₂ _ _ _ => ?_
  exact .value (hv.mono (C.links_mono hw₂))

theorem runs_evalOperator {op : Operation} {operands operands' : List Expr} (t : Ty)
    (hi : ∀ w₁, w ≤ w₁ → ∀ args args', Value.Likes (C.links w₁) args args' →
      Runs w₁ (fun w => Value.Like (C.links w)) (m.operate op args) fun k => (m' k).operate op args')
    (h : List.Forall₂ (C.Steps w m m' env env') operands operands') :
    Runs w (fun w => Value.Like (C.links w)) (m.evalOperator env op operands t)
      fun k => (m' k).evalOperator env' op operands' t := by
  refine (runs_evalAll h).bind fun w₁ hw₁ args args' ha => ?_
  refine (Runs.ofLikes (op.agree_validate ha)).bind fun w₂ hw₂ vs vs' hvs => ?_
  refine (hi w₂ (hw₁.trans hw₂) vs vs' hvs).bind fun w₃ _ v v' hv => ?_
  exact .ofLike (hv.castNoting _ _)

theorem runs_pure {op : Operation} (hop : op.isPure = true)
    (hf : C.Fuels m.fuel fun k => (m' k).fuel) {args args' : List Value}
    (ha : Value.Likes (C.links w) args args') :
    Runs w (fun w => Value.Like (C.links w)) (m.operate op args) fun k => (m' k).operate op args' := by
  cases op with
  | builtIn op => exact runs_operator op hf ha
  | host => cases hop

theorem runs_evalCast (t : Ty) (h : C.Steps w m m' env env' e e') :
    Runs w (fun w => Value.Like (C.links w)) (m.evalNode env (.cast t e))
      fun k => (m' k).evalNode env' (.cast t e') :=
  h.bind fun _ _ _ _ hv => .ofLike (hv.cast t)

theorem runs_evalInstanceOf (t : Ty) (h : C.Steps w m m' env env' e e') :
    Runs w (fun w => Value.Like (C.links w)) (m.evalNode env (.instanceOf e t))
      fun k => (m' k).evalNode env' (.instanceOf e' t) :=
  h.bind fun _ _ _ _ hv => .value (hv.isInstance_eq t ▸ .plain rfl)

end Correspondence

end ExprCore
