import ExprCore.Proofs.Invariants.Places
import ExprCore.Proofs.Likeness.Constants

/-!
Nodes under a discipline. As soon as subtrees keep it, so does the node; and a node that holds its
static type yields values of this type.
-/

namespace ExprCore
set_option autoImplicit false

namespace Discipline

variable {W : Type} [Preorder W] {D : Discipline W} {w : W} {v : Value} {vs args : List Value}
  {n : Nat} {host : Host} {f g : Env → Expr → Run Value} {env : Env} {e a b c : Expr}
  {es : List Expr}

theorem Keeps.and_ok {α : Type} {post : W → α → Prop} {q : α → Prop} {x y : Run α}
    (h : D.Keeps w post x y) (hq : ∀ s a s', y s = .ok a s' → q a) :
    D.Keeps w (fun w a => post w a ∧ q a) x y := by
  intro w₁ hw s hs
  obtain ⟨hsame, hlands⟩ := h w₁ hw s hs
  refine ⟨hsame, ?_⟩
  generalize hy : y s = r at hlands
  cases hlands with
  | ok hw' hs' h => exact .ok hw' hs' ⟨h, hq s _ _ hy⟩
  | error hw' hs' he => exact .error hw' hs' he

abbrev Steps (D : Discipline W) (f g : Env → Expr → Run Value) (w : W) (env : Env) (e : Expr) :
    Prop := D.Yields w (f env e) (g env e)

theorem place_weaken {writes writes' : Bool → Prop} {p : Place}
    (h : ∀ final, writes' final → writes final) (hp : D.place writes w p) :
    D.place writes' w p := by
  cases p with
  | cell => exact fun hw => hp (h _ hw)
  | element => exact hp
  | hostField | staticField => exact trivial

variable (hf : D.Follows host f g)
include hf

theorem steps_here (ht : D.tree w env e) (hx : (Entry.here, a) ∈ e.children) :
    D.Steps f g w env a :=
  (hf.trees (hf.lawful.child ht hx)).weaken fun _ _ _ h => h.1

/-- The place of a target, which the node may write as far as final slots allow. -/
theorem keeps_target (ht : D.tree w env e) (ha : a ∈ e.targets) :
    D.Keeps w (D.place (writes e)) (Machine.place ⟨host, n, f⟩ env a)
      (Machine.place ⟨host, n, g⟩ env a) :=
  keeps_place hf.lawful (fun _ hx => hf.trees hx)
    (hf.lawful.child ht (Expr.target_mem_children ha))
    fun b _ hb hr hw => hf.lawful.target ht (b := b) (hb ▸ ha) hw hr

theorem keeps_evalAll (h : ∀ x ∈ es, D.Steps f g w env x) :
    D.Keeps w (fun w vs => ∀ v ∈ vs, D.value w v) (Machine.evalAll ⟨host, n, f⟩ env es)
      (Machine.evalAll ⟨host, n, g⟩ env es) := by
  have hD := hf.lawful
  induction es generalizing w with
  | nil => exact .pure fun _ _ => List.forall_mem_nil _
  | cons x es ih =>
    refine (h x List.mem_cons_self).bind fun w₁ hw₁ v hv => ?_
    refine (ih fun y hy => (h y (List.mem_cons_of_mem x hy)).mono hw₁).bind fun w₂ hw₂ vs hvs => ?_
    refine .pure fun w₃ hw₃ u hu => ?_
    rcases List.mem_cons.mp hu with rfl | hu
    · exact hD.value_mono (hw₂.trans hw₃) hv
    · exact hD.value_mono hw₃ (hvs u hu)

theorem keeps_evalElements (t : Ty) (h : ∀ x ∈ es, D.Steps f g w env x) :
    D.Keeps w (fun w vs => ∀ v ∈ vs, D.value w v) (Machine.evalElements ⟨host, n, f⟩ env t es)
      (Machine.evalElements ⟨host, n, g⟩ env t es) := by
  have hD := hf.lawful
  induction es generalizing w with
  | nil => exact .pure fun _ _ => List.forall_mem_nil _
  | cons x es ih =>
    refine (h x List.mem_cons_self).bind fun w₁ hw₁ v hv => ?_
    refine (Keeps.cast hD hv t).bind fun w₂ hw₂ u hu => ?_
    refine (ih fun y hy => (h y (List.mem_cons_of_mem x hy)).mono (hw₁.trans hw₂)).bind ?_
    refine fun w₃ hw₃ us hus => .pure fun w₄ hw₄ y hy => ?_
    rcases List.mem_cons.mp hy with rfl | hy
    · exact hD.value_mono (hw₃.trans hw₄) hu.1
    · exact hD.value_mono hw₄ (hus y hy)

omit hf in
theorem keeps_mapKey (v : Value) :
    D.Keeps w (fun _ _ => True) (Run.ofExcept (Indexable.mapKey v))
      (Run.ofExcept (Indexable.mapKey v)) :=
  .ofExcept (fun _ _ _ _ => trivial) fun _ => failure_of_agree (Value.Like.refl_same v).mapKey

omit hf in
theorem keeps_toInt (v : Value) :
    D.Keeps w (fun _ _ => True) (Run.ofExcept v.toInt) (Run.ofExcept v.toInt) :=
  .ofExcept (fun _ _ _ _ => trivial) fun _ => failure_of_agree (Value.Like.refl_same v).toInt

theorem keeps_evalEntries (t : Ty) {xs : List (Expr × Expr)}
    (h : ∀ x ∈ xs, D.Steps f g w env x.1 ∧ D.Steps f g w env x.2) :
    D.Keeps w (fun w entries => ∀ e ∈ entries, D.value w e.2)
      (Machine.evalEntries ⟨host, n, f⟩ env t xs) (Machine.evalEntries ⟨host, n, g⟩ env t xs) := by
  have hD := hf.lawful
  induction xs generalizing w with
  | nil => exact .pure fun _ _ => List.forall_mem_nil _
  | cons x xs ih =>
    obtain ⟨hk, hx⟩ := h x List.mem_cons_self
    refine hk.bind fun w₁ hw₁ k _ => (keeps_mapKey k).bind fun w₂ hw₂ key _ => ?_
    refine (hx.mono (hw₁.trans hw₂)).bind fun w₃ hw₃ v hv => ?_
    refine (Keeps.cast hD hv t).bind fun w₄ hw₄ u hu => ?_
    have hw : w ≤ w₄ := hw₁.trans (hw₂.trans (hw₃.trans hw₄))
    refine (ih fun y hy => ?_).bind fun w₅ hw₅ more hmore => .pure fun w₆ hw₆ y hy => ?_
    · have hy := h y (List.mem_cons_of_mem x hy)
      exact ⟨hy.1.mono hw, hy.2.mono hw⟩
    · rcases List.mem_cons.mp hy with rfl | hy
      · exact hD.value_mono (hw₅.trans hw₆) hu.1
      · exact hD.value_mono hw₆ (hmore y hy)

omit hf in
theorem keeps_truthOf (h : D.Steps f g w env a) :
    D.Keeps w (fun _ _ => True) (Machine.truthOf ⟨host, n, f⟩ env a)
      (Machine.truthOf ⟨host, n, g⟩ env a) :=
  h.bind fun _ _ _ _ => .get_bind fun _ _ _ hs => .pure hs trivial

theorem keeps_evalSequence (last : Value) (hl : D.value w last) (h : ∀ x ∈ es, D.tree w env x) :
    D.Keeps w (fun w v => D.value w v ∧ (D.typed → Expr.lastHoldsType es = true →
        (es = [] → Ty.void.Conforms last) → (Expr.lastType es).Conforms v))
      (Machine.evalSequence ⟨host, n, f⟩ env last es)
      (Machine.evalSequence ⟨host, n, g⟩ env last es) := by
  have hD := hf.lawful
  induction es generalizing w last with
  | nil => exact .pure fun w' hw => ⟨hD.value_mono hw hl, fun _ _ hv => hv rfl⟩
  | cons x es ih =>
    refine (hf.trees (h x List.mem_cons_self)).bind fun w₁ hw₁ v hv => ?_
    have hrest : ∀ y ∈ es, D.tree w₁ env y := fun y hy =>
      hD.tree_mono hw₁ (h y (List.mem_cons_of_mem x hy))
    cases es with
    | nil => exact .pure fun w₂ hw₂ => ⟨hD.value_mono hw₂ hv.1, fun ht hh _ => hv.2 ht hh⟩
    | cons y es =>
      refine (ih v hv.1 hrest).weaken fun w₂ _ u hu => ⟨hu.1, fun ht hh _ => hu.2 ht hh fun hn => ?_⟩
      cases hn

theorem keeps_evalOperator {op : Operation} (hop : D.callable w (.operator op)) (t : Ty)
    (h : ∀ x ∈ es, D.Steps f g w env x) :
    D.Yields w (Machine.evalOperator ⟨host, n, f⟩ env op es t)
      (Machine.evalOperator ⟨host, n, g⟩ env op es t) := by
  have hD := hf.lawful
  refine (keeps_evalAll hf h).bind fun w₁ hw₁ args ha => ?_
  refine (keeps_validateOperator hD op ha).bind fun w₂ hw₂ vs hvs => ?_
  have hop := hD.callable_mono (hw₁.trans hw₂) hop
  refine (keeps_operate hf hop hvs).bind fun w₃ _ v hv => ?_
  exact (Keeps.castNoting hD hv t _).weaken fun _ _ _ h => h.1

theorem keeps_evalLogical (op : Connective) (ha : D.Steps f g w env a)
    (hb : D.Steps f g w env b) :
    D.Yields w (Machine.evalLogical ⟨host, n, f⟩ env op a b)
      (Machine.evalLogical ⟨host, n, g⟩ env op a b) := by
  have hD := hf.lawful
  refine (keeps_truthOf ha).bind fun w₁ hw₁ p _ => ?_
  have hrhs : D.Yields w₁ (Value.bool <$> Machine.truthOf ⟨host, n, f⟩ env b)
      (Value.bool <$> Machine.truthOf ⟨host, n, g⟩ env b) := by
    rw [map_eq_pure_bind, map_eq_pure_bind]
    exact (keeps_truthOf (hb.mono hw₁)).bind fun _ _ _ _ => .value hD (hD.plain rfl)
  cases op <;> cases p
  · exact .value hD (hD.plain rfl)
  · exact hrhs
  · exact hrhs
  · exact .value hD (hD.plain rfl)

theorem keeps_evalConditional (t : Ty) (ha : D.Steps f g w env a) (hb : D.Steps f g w env b)
    (hc : D.Steps f g w env c) :
    D.Yields w (Machine.evalConditional ⟨host, n, f⟩ env a b c t)
      (Machine.evalConditional ⟨host, n, g⟩ env a b c t) := by
  refine (keeps_truthOf ha).bind fun w₁ hw₁ p _ => ?_
  have hbranch : D.Steps f g w₁ env (if p = true then b else c) := by
    split
    · exact hb.mono hw₁
    · exact hc.mono hw₁
  refine hbranch.bind fun w₂ _ v hv => ?_
  exact (Keeps.castNoting hf.lawful hv t _).weaken fun _ _ _ h => h.1

theorem keeps_evalAssign (mode : AssignMode) (ht : D.tree w env (.assign mode a b)) :
    D.Yields w (Machine.evalAssign ⟨host, n, f⟩ env mode a b)
      (Machine.evalAssign ⟨host, n, g⟩ env mode a b) := by
  have hD := hf.lawful
  refine (keeps_target hf ht List.mem_cons_self).bind fun w₁ hw₁ p hp => ?_
  have hb : D.Steps f g w env b := steps_here hf ht (by simp [Expr.children])
  refine (hb.mono hw₁).bind fun w₂ hw₂ v hv => ?_
  have hp := place_mono hD hw₂ hp
  cases mode with
  | assign => exact keeps_write hf hp hv
  | declare => exact keeps_store hf (place_weaken (fun _ _ => .inr rfl) hp) hv

theorem keeps_evalCompound (op : Operation) (result : Option Ty)
    (ht : D.tree w env (.compound op a b result)) :
    D.Yields w (Machine.evalCompound ⟨host, n, f⟩ env op a b result)
      (Machine.evalCompound ⟨host, n, g⟩ env op a b result) := by
  have hD := hf.lawful
  refine (keeps_target hf ht List.mem_cons_self).bind fun w₁ hw₁ p hp => ?_
  refine (keeps_read hf hp).bind fun w₂ hw₂ old hold => ?_
  have hb : D.Steps f g w env b := steps_here hf ht (by simp [Expr.children])
  refine (hb.mono (hw₁.trans hw₂)).bind fun w₃ hw₃ v hv => ?_
  have hargs : ∀ u ∈ [old, v], D.value w₃ u := by
    simpa using ⟨hD.value_mono hw₃ hold, hv⟩
  refine (keeps_validateOperator hD op hargs).bind fun w₄ hw₄ vs hvs => ?_
  have hop := hD.callable_mono (hw₁.trans (hw₂.trans (hw₃.trans hw₄))) (hD.operation ht rfl)
  refine (keeps_operate hf hop hvs).bind fun w₅ hw₅ u hu => ?_
  refine (Keeps.cast hD hu _).bind fun w₆ hw₆ t ht => ?_
  have hw : w₁ ≤ w₆ := hw₂.trans (hw₃.trans (hw₄.trans (hw₅.trans hw₆)))
  exact keeps_write hf (place_mono hD hw hp) ht.1

theorem keeps_evalStep (step : Step) (ht : D.tree w env (.step step a)) :
    D.Yields w (Machine.evalStep ⟨host, n, f⟩ env step a)
      (Machine.evalStep ⟨host, n, g⟩ env step a) := by
  have hD := hf.lawful
  refine (keeps_target hf ht List.mem_cons_self).bind fun w₁ hw₁ p hp => ?_
  refine (keeps_read hf hp).bind fun w₂ hw₂ old hold => ?_
  refine (keeps_arith hD .add n old _).bind fun w₃ hw₃ u hu => ?_
  refine (keeps_write hf (place_mono hD (hw₂.trans hw₃) hp) hu).bind fun w₄ hw₄ v hv => ?_
  refine .value hD ?_
  split
  · exact hv
  · exact hD.value_mono (hw₃.trans hw₄) hold

theorem keeps_evalSlice (ha : D.Steps f g w env a) (hb : D.Steps f g w env b)
    (hc : D.Steps f g w env c) :
    D.Yields w (Machine.evalSlice ⟨host, n, f⟩ env a b c)
      (Machine.evalSlice ⟨host, n, g⟩ env a b c) := by
  have hD := hf.lawful
  refine ha.bind fun w₁ hw₁ v hv => ?_
  refine (keeps_indexable hD hv).bind fun w₂ hw₂ i hi => ?_
  refine (hb.mono (hw₁.trans hw₂)).bind fun w₃ hw₃ lo _ => ?_
  refine (keeps_toInt lo).bind fun w₄ hw₄ lo _ => ?_
  refine (hc.mono (hw₁.trans (hw₂.trans (hw₃.trans hw₄)))).bind fun w₅ hw₅ hi' _ => ?_
  refine (keeps_toInt hi').bind fun w₆ hw₆ hi' _ => ?_
  exact keeps_slice hD i (hD.value_mono (hw₃.trans (hw₄.trans (hw₅.trans hw₆))) hi) lo hi'

theorem keeps_callMethod (hv : D.value w v) (method : String) (ha : ∀ u ∈ args, D.value w u) :
    D.Yields w (Machine.callMethod ⟨host, n, f⟩ v method args)
      (Machine.callMethod ⟨host, n, g⟩ v method args) := by
  have hD := hf.lawful
  cases v with
  | host className r =>
    exact keeps_dispatchValue hf _ ((hf.honest className).invokeMethod w r method args ha)
  | object className r =>
    refine .get_bind fun w₁ hw₁ s hs => ?_
    cases (s.instanceAt r).member? method with
    | none => exact (Keeps.fail rfl) w₁ le_rfl s hs
    | some c =>
      refine (keeps_readCell hD c.1 w₁ le_rfl s hs).bind fun w₂ hw₂ u hu => ?_
      cases u with
      | function info r => exact keeps_callForResult hf r (values_mono hD (hw₁.trans hw₂) ha)
      | _ => exact .fail rfl
  | _ => exact .fail rfl

theorem keeps_evalMethodCall (method : String) (ha : D.Steps f g w env a)
    (h : ∀ x ∈ es, D.Steps f g w env x) :
    D.Yields w (Machine.evalMethodCall ⟨host, n, f⟩ env a method es)
      (Machine.evalMethodCall ⟨host, n, g⟩ env a method es) := by
  refine ha.bind fun w₁ hw₁ v hv => ?_
  refine (keeps_evalAll hf fun x hx => (h x hx).mono hw₁).bind fun w₂ hw₂ args ha => ?_
  exact keeps_callMethod hf (hf.lawful.value_mono hw₂ hv) method ha

theorem keeps_evalApply (ha : D.Steps f g w env a) (h : ∀ x ∈ es, D.Steps f g w env x) :
    D.Yields w (Machine.evalApply ⟨host, n, f⟩ env a es)
      (Machine.evalApply ⟨host, n, g⟩ env a es) := by
  refine ha.bind fun w₁ hw₁ v _ => ?_
  have hfun : D.Keeps w₁ (fun _ _ => True) (Machine.functionIn v) (Machine.functionIn v) := by
    cases v with
    | function info r => exact .pure fun _ _ => trivial
    | _ => exact .fail rfl
  refine hfun.bind fun w₂ hw₂ r _ => ?_
  refine (keeps_evalAll hf fun x hx => (h x hx).mono (hw₁.trans hw₂)).bind fun w₃ _ args ha => ?_
  exact keeps_callForResult hf r ha

theorem keeps_evalBlock {layout : Layout} {ret : Ty} (ht : D.tree w env (.block layout es ret)) :
    D.Yields w (Machine.evalBlock ⟨host, n, f⟩ env layout es ret)
      (Machine.evalBlock ⟨host, n, g⟩ env layout es ret) := by
  have hD := hf.lawful
  have henter : D.Keeps w (fun w inner => ∀ x ∈ es, D.tree w inner x) (Run.enter env layout)
      (Run.enter env layout) := by
    intro w₁ hw₁ s hs
    obtain ⟨w₂, hw₂, hs₂, hbody⟩ := hD.enterBlock (hD.tree_mono hw₁ ht) hs
    exact ⟨rfl, .ok hw₂ hs₂ hbody⟩
  refine henter.bind fun w₁ _ inner hbody => ?_
  have hseq : D.Yields w₁ (Machine.evalSequence ⟨host, n, f⟩ inner .void es)
      (Machine.evalSequence ⟨host, n, g⟩ inner .void es) :=
    (keeps_evalSequence hf .void (hD.plain rfl) hbody).weaken fun _ _ _ h => h.1
  refine (hseq.catchReturn hD).bind fun w₂ _ v hv => ?_
  exact (Keeps.castNoting hD hv ret _).weaken fun _ _ _ h => h.1

theorem keeps_evalArrayLiteral (t : Ty) (h : ∀ x ∈ es, D.Steps f g w env x) :
    D.Yields w (Machine.evalArrayLiteral ⟨host, n, f⟩ env t es)
      (Machine.evalArrayLiteral ⟨host, n, g⟩ env t es) := by
  refine (keeps_evalAll hf h).bind fun w₁ _ vs hvs => ?_
  refine (keeps_castAll hf.lawful t hvs).bind fun w₂ _ us hus => ?_
  exact keeps_newArrayOf hf.lawful hus.1 hus.2

theorem keeps_evalArrayAlloc (t : Ty) (ha : D.Steps f g w env a) :
    D.Yields w (Machine.evalArrayAlloc ⟨host, n, f⟩ env t a)
      (Machine.evalArrayAlloc ⟨host, n, g⟩ env t a) := by
  refine ha.bind fun w₁ _ v _ => (keeps_toInt v).bind fun w₂ _ k _ => ?_
  split
  · exact .fail rfl
  · refine keeps_newArrayOf hf.lawful (fun u hu => ?_) fun u hu => ?_
    · rw [List.eq_of_mem_replicate hu]
      exact value_of_plain hf.lawful (Pairing.default_plain t)
    · rw [List.eq_of_mem_replicate hu]
      exact Ty.conforms_default t

theorem keeps_evalExtendList (t : Ty) (ha : D.Steps f g w env a)
    (h : ∀ x ∈ es, D.Steps f g w env x) :
    D.Yields w (Machine.evalExtendList ⟨host, n, f⟩ env a t es)
      (Machine.evalExtendList ⟨host, n, g⟩ env a t es) := by
  have hD := hf.lawful
  refine ha.bind fun w₁ hw₁ v hv => ?_
  cases v with
  | list r =>
    refine (keeps_evalElements hf t fun x hx => (h x hx).mono hw₁).bind fun w₂ hw₂ vs hvs => ?_
    refine .get_bind fun w₃ hw₃ s hs => ?_
    have hr := hD.value_mono (hw₂.trans hw₃) hv
    have hitems : ∀ u ∈ s.items r ++ vs, D.value w₃ u := fun u hu => by
      rcases List.mem_append.mp hu with hu | hu
      · exact value_item hD hs u hu
      · exact hD.value_mono hw₃ (hvs u hu)
    have hwrite : D.KeepsAt w₃ (fun _ _ => True) s (Run.writeSequence r (s.items r ++ vs))
        (Run.writeSequence r (s.items r ++ vs)) := .modify (hD.writeList hs hr hitems)
    exact hwrite.bind fun w₄ hw₄ _ _ => .value hD (hD.value_mono hw₄ hr)
  | _ => exact .fail rfl

theorem keeps_evalExtendMap (t : Ty) (ha : D.Steps f g w env a) {xs : List (Expr × Expr)}
    (h : ∀ x ∈ xs, D.Steps f g w env x.1 ∧ D.Steps f g w env x.2) :
    D.Yields w (Machine.evalExtendMap ⟨host, n, f⟩ env a t xs)
      (Machine.evalExtendMap ⟨host, n, g⟩ env a t xs) := by
  have hD := hf.lawful
  refine ha.bind fun w₁ hw₁ v _ => ?_
  cases v with
  | map r =>
    refine (keeps_evalEntries hf t fun x hx => ⟨(h x hx).1.mono hw₁, (h x hx).2.mono hw₁⟩).bind ?_
    intro w₂ _ more hmore
    refine .get_bind fun w₃ hw₃ s hs => ?_
    have hall := value_insertAll (value_entries hD (r := r) hs) fun e he =>
      hD.value_mono hw₃ (hmore e he)
    refine (keeps_writeMap hD r hall w₃ le_rfl s hs).bind fun w₄ _ _ _ => ?_
    exact .value hD (hD.plain rfl)
  | _ => exact .fail rfl

theorem keeps_evalLoop (ha : D.Steps f g w env a) (hb : D.Steps f g w env b) (k : Nat) :
    D.Yields w (Machine.evalLoop ⟨host, n, f⟩ env a b k)
      (Machine.evalLoop ⟨host, n, g⟩ env a b k) := by
  induction k generalizing w with
  | zero => exact .halt rfl
  | succ k ih =>
    refine (keeps_truthOf ha).bind fun w₁ hw₁ p _ => ?_
    cases p with
    | false => exact .value hf.lawful (hf.lawful.plain rfl)
    | true =>
      refine (hb.mono hw₁).bind fun w₂ hw₂ _ _ => ?_
      exact ih (ha.mono (hw₁.trans hw₂)) (hb.mono (hw₁.trans hw₂))

theorem keeps_evalTry (t : Ty) (ht : D.tree w env (.tryCatch a b c)) :
    D.Yields w (Machine.evalTry ⟨host, n, f⟩ env a b c t)
      (Machine.evalTry ⟨host, n, g⟩ env a b c t) := by
  have hD := hf.lawful
  have ha : D.Steps f g w env a := steps_here hf ht (by simp [Expr.children])
  have hcast {w : W} {x y : Run Value} (h : D.Yields w x y) :
      D.Yields w (x >>= fun v => Run.ofExcept (t.cast v)) (y >>= fun v => Run.ofExcept (t.cast v)) :=
    h.bind fun _ _ v hv => (Keeps.cast hD hv t).weaken fun _ _ _ h => h.1
  refine ha.outcome.bind fun w₁ hw₁ o ho => ?_
  cases o with
  | ok v => exact (Keeps.cast hD ho t).weaken fun _ _ _ h => h.1
  | error e =>
    dsimp only
    cases e.returned? with
    | some v => exact hcast (.throwError hD ho)
    | none =>
      refine hcast ?_
      have hp := (keeps_target hf (n := n) ht List.mem_cons_self).mono hw₁
      refine hp.bind fun w₂ hw₂ p hp => ?_
      have hp : D.place (fun _ => True) w₂ p := place_weaken (fun _ _ => .inr rfl) hp
      refine (keeps_store hf hp (hD.plain rfl)).bind fun w₃ hw₃ _ _ => ?_
      have hc : D.Steps f g w env c := steps_here hf ht (by simp [Expr.children])
      exact hc.mono (hw₁.trans (hw₂.trans hw₃))

omit hf in
theorem keeps_evalRaise (ha : D.Steps f g w env a) :
    D.Yields w (Machine.evalRaise ⟨host, n, f⟩ env a)
      (Machine.evalRaise ⟨host, n, g⟩ env a) := by
  refine ha.bind fun w₁ _ v _ => .get_bind fun w₂ _ s hs => ?_
  exact (Keeps.ofOption w₂ le_rfl s hs).bind fun _ _ _ _ => .fail rfl

theorem keeps_evalVar {x : Binding} (ht : D.tree w env (.var x)) :
    D.Keeps w (D.result (.var x)) (Machine.evalPlace ⟨host, n, f⟩ env (.var x))
      (Machine.evalPlace ⟨host, n, g⟩ env (.var x)) := by
  have hD := hf.lawful
  have hcell : D.Keeps w (fun _ r => env.cell? x.depth x.address = some r)
      (Machine.cellOf env x) (Machine.cellOf env x) := by
    unfold Machine.cellOf
    cases hc : env.cell? x.depth x.address with
    | none => exact .throwError hD (error_of_failure rfl)
    | some r => exact .pure fun _ _ => rfl
  have hplace : D.Keeps w (fun _ p => ∃ r, env.cell? x.depth x.address = some r ∧
      p = .cell r x.name x.type x.final) (Machine.place ⟨host, n, f⟩ env (.var x))
      (Machine.place ⟨host, n, g⟩ env (.var x)) :=
    hcell.bind fun _ _ r hr => .pure fun _ _ => ⟨r, hr, rfl⟩
  refine hplace.bind fun w₁ hw₁ p hp => ?_
  obtain ⟨r, hr, rfl⟩ := hp
  refine fun w₂ hw₂ s hs => ⟨rfl, .ok le_rfl hs ⟨value_cell hD hs r, fun htyped _ => ?_⟩⟩
  exact hD.var htyped (hD.tree_mono (hw₁.trans hw₂) ht) hr hs

theorem keeps_evalBefore (ht : D.tree w env (.before a b)) :
    D.Keeps w (D.result (.before a b)) (Machine.evalBefore ⟨host, n, f⟩ env a b)
      (Machine.evalBefore ⟨host, n, g⟩ env a b) := by
  have hD := hf.lawful
  have ha := hf.trees (hD.child ht (x := a) (by simp [Expr.children]))
  refine ha.bind fun w₁ hw₁ v hv => ?_
  have hb : D.Steps f g w env b := steps_here hf ht (by simp [Expr.children])
  refine (hb.mono hw₁).bind fun w₂ hw₂ _ _ => .pure fun w₃ hw₃ => ?_
  exact ⟨hD.value_mono (hw₂.trans hw₃) hv.1, hv.2⟩

theorem yields_node (ht : D.tree w env e) :
    D.Yields w (Machine.evalNode ⟨host, n, f⟩ env e) (Machine.evalNode ⟨host, n, g⟩ env e) := by
  have hD := hf.lawful
  have here {x : Expr} (hx : (Entry.here, x) ∈ e.children) : D.Steps f g w env x :=
    steps_here hf ht hx
  have all {xs : List Expr} (hxs : ∀ x ∈ xs, (Entry.here, x) ∈ e.children) :
      ∀ x ∈ xs, D.Steps f g w env x := fun x hx => here (hxs x hx)
  have entries {xs : List (Expr × Expr)} (hxs : ∀ x ∈ xs.flatMap fun entry =>
      [(Entry.here, entry.1), (Entry.here, entry.2)], x ∈ e.children) :
      ∀ x ∈ xs, D.Steps f g w env x.1 ∧ D.Steps f g w env x.2 := fun x hx =>
    ⟨here (hxs _ (Expr.key_mem hx)), here (hxs _ (Expr.value_mem hx))⟩
  have hplace : D.Yields w (Machine.evalPlace ⟨host, n, f⟩ env e)
      (Machine.evalPlace ⟨host, n, g⟩ env e) := by
    have hp : D.Keeps w (D.place fun _ => False) (Machine.place ⟨host, n, f⟩ env e)
        (Machine.place ⟨host, n, g⟩ env e) :=
      keeps_place hD (fun _ hx => hf.trees hx) ht fun _ _ _ _ hw => hw.elim
    exact hp.bind fun w₁ _ p hp => keeps_read hf hp
  cases e with
  | literal v t => exact .value hD (hD.literal ht).1
  | name => exact .fail rfl
  | scopeRef hops => exact .halt rfl
  | var | index | member | staticField => exact hplace
  | operator form op operands =>
    exact keeps_evalOperator hf (hD.operation ht rfl) _ (all fun _ hx => List.mem_map_of_mem hx)
  | logical op a b =>
    exact keeps_evalLogical hf op (here (by simp [Expr.children])) (here (by simp [Expr.children]))
  | conditional a b c =>
    exact keeps_evalConditional hf _ (here (by simp [Expr.children]))
      (here (by simp [Expr.children])) (here (by simp [Expr.children]))
  | sequence items =>
    refine (keeps_evalSequence hf .void (hD.plain rfl) fun x hx => ?_).weaken fun _ _ _ h => h.1
    exact hD.child ht (List.mem_map_of_mem hx)
  | before a b => exact (keeps_evalBefore hf ht).weaken fun _ _ _ h => h.1
  | cast t a =>
    refine (here (x := a) (by simp [Expr.children])).bind fun w₁ _ v hv => ?_
    exact (Keeps.cast hD hv t).weaken fun _ _ _ h => h.1
  | instanceOf a t =>
    exact (here (x := a) (by simp [Expr.children])).bind fun _ _ _ _ => .value hD (hD.plain rfl)
  | assign mode a b => exact keeps_evalAssign hf mode ht
  | compound op a b result => exact keeps_evalCompound hf op result ht
  | step step a => exact keeps_evalStep hf step ht
  | slice a b c =>
    exact keeps_evalSlice hf (here (by simp [Expr.children])) (here (by simp [Expr.children]))
      (here (by simp [Expr.children]))
  | methodCall a method args =>
    exact keeps_evalMethodCall hf method (here (by simp [Expr.children]))
      (all fun _ hx => List.mem_cons_of_mem _ (List.mem_map_of_mem hx))
  | staticCall className method args =>
    refine (keeps_evalAll hf (all fun _ hx => List.mem_map_of_mem hx)).bind fun w₁ _ vs hvs => ?_
    exact keeps_dispatchValue hf _ ((hf.honest className).invokeStatic w₁ method vs hvs)
  | new className args =>
    refine (keeps_evalAll hf (all fun _ hx => List.mem_map_of_mem hx)).bind fun w₁ _ vs hvs => ?_
    exact keeps_dispatchValue hf _ ((hf.honest className).construct w₁ vs hvs)
  | apply a args =>
    exact keeps_evalApply hf (here (by simp [Expr.children]))
      (all fun _ hx => List.mem_cons_of_mem _ (List.mem_map_of_mem hx))
  | lambda signature body => exact keeps_newFunction hD _ (hD.lambda ht)
  | block layout body ret => exact keeps_evalBlock hf ht
  | earlyReturn a =>
    refine (here (x := a) (by simp [Expr.children])).bind fun w₁ _ v hv => ?_
    exact .throwError hD fun u hu => by cases hu; exact hv
  | arrayLiteral t items =>
    exact keeps_evalArrayLiteral hf t (all fun _ hx => List.mem_map_of_mem hx)
  | arrayAlloc t a => exact keeps_evalArrayAlloc hf t (here (by simp [Expr.children]))
  | listLiteral t items =>
    refine (keeps_evalElements hf t (all fun _ hx => List.mem_map_of_mem hx)).bind ?_
    exact fun w₁ _ vs hvs => keeps_newList hD hvs
  | extendList a t items =>
    exact keeps_evalExtendList hf t (here (by simp [Expr.children]))
      (all fun _ hx => List.mem_cons_of_mem _ (List.mem_map_of_mem hx))
  | mapLiteral t xs =>
    refine (keeps_evalEntries hf t (entries fun _ hx => hx)).bind fun w₁ _ more hmore => ?_
    exact keeps_newMap hD (value_insertAll (List.forall_mem_nil _) hmore)
  | extendMap a t xs =>
    exact keeps_evalExtendMap hf t (here (by simp [Expr.children]))
      (entries fun _ hx => List.mem_cons_of_mem _ hx)
  | loop a b =>
    exact keeps_evalLoop hf (here (by simp [Expr.children])) (here (by simp [Expr.children])) n
  | tryCatch a b c => exact keeps_evalTry hf _ ht
  | raise a => exact keeps_evalRaise (here (by simp [Expr.children]))

theorem keeps_node (ht : D.tree w env e) :
    D.Keeps w (D.result e) (Machine.evalNode ⟨host, n, f⟩ env e)
      (Machine.evalNode ⟨host, n, g⟩ env e) := by
  -- nodes that hold their type by themselves are told apart from those that take it from a child
  have self (hb : e.borrowsType = false) :
      D.Keeps w (D.result e) (Machine.evalNode ⟨host, n, f⟩ env e)
        (Machine.evalNode ⟨host, n, g⟩ env e) := by
    refine ((yields_node hf ht).and_ok (q := fun v => D.typed → e.holdsType = true →
      e.type.Conforms v) fun s v s' hev htyped hh => ?_)
    refine Machine.conforms_evalNode (fun u t he => ?_) hb hh hev
    subst he
    exact (hf.lawful.literal ht).2 htyped
  cases e with
  | var x => exact keeps_evalVar hf ht
  | before a b => exact keeps_evalBefore hf ht
  | sequence items =>
    refine (keeps_evalSequence hf .void (hf.lawful.plain rfl) fun x hx => ?_).weaken ?_
    · exact hf.lawful.child ht (List.mem_map_of_mem hx)
    · exact fun _ _ v hv => ⟨hv.1, fun htyped hh => hv.2 htyped hh fun _ => rfl⟩
  | _ => exact self rfl

end Discipline

end ExprCore
