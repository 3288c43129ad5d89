import ExprCore.Proofs.Invariants.Operations

/-!
Calls under a discipline. Operators, host programs and functions keep it, as soon as the evaluation of
trees does.
-/

namespace ExprCore
set_option autoImplicit false

namespace Discipline

variable {W : Type} [Preorder W] {D : Discipline W} {w : W} {v u : Value} {vs args : List Value}
  {n : Nat}

section Operators

variable (hD : D.Lawful)
include hD

theorem keeps_plain {r : Except EvalError Value} (h : Agree (Value.Like .none) r r) :
    D.Yields w (Run.ofExcept r) (Run.ofExcept r) := by
  refine .ofExcept (fun w' _ v hv => ?_) fun e he => ?_
  · rw [hv] at h
    cases h with
    | ok h =>
      cases h with
      | plain h => exact value_of_plain hD h
      | buffer h | list h | array h | map h => exact h.elim
  · rw [he] at h
    cases h
    assumption

theorem keeps_arith (op : Arith) (fuel : Nat) (a b : Value) :
    D.Yields w (op.invoke fuel a b) (op.invoke fuel a b) := by
  unfold Arith.invoke
  split
  · refine .get_bind fun w₁ _ s hs => ?_
    refine (Keeps.ofOption w₁ le_rfl s hs).bind fun w₂ _ left _ => ?_
    refine Keeps.ofOption.bind fun w₃ _ right _ => ?_
    exact .value hD (hD.plain rfl)
  · split
    · exact keeps_plain hD (op.agree_onNumbers _ _)
    · exact .fail rfl

theorem keeps_comparison (op : Comparison) (fuel : Nat) (a b : Value) :
    D.Yields w (op.invoke fuel a b) (op.invoke fuel a b) := by
  unfold Comparison.invoke
  split
  · exact .value hD (hD.plain rfl)
  · split
    · refine .get_bind fun w₁ _ s hs => ?_
      refine (Keeps.ofOption w₁ le_rfl s hs).bind fun w₂ _ same _ => ?_
      exact .value hD (hD.plain rfl)
    · exact .fail rfl

omit hD in
theorem keeps_walkDoubles (last step : Float) (walked : List Value) (x : Float)
    (hw : ∀ v ∈ walked, v.isSequence = false) :
    D.Keeps w (fun _ vs => ∀ v ∈ vs, v.isSequence = false)
      (Operator.walkDoubles last step n walked x) (Operator.walkDoubles last step n walked x) := by
  induction n generalizing walked x with
  | zero => exact .halt rfl
  | succ n ih =>
    unfold Operator.walkDoubles
    split
    · simp only
      split
      · exact .fail rfl
      · refine ih _ _ fun v hv => ?_
        rcases List.mem_cons.mp hv with rfl | hv
        · rfl
        · exact hw v hv
    · exact .pure fun _ _ v hv => hw v (List.mem_reverse.mp hv)

theorem keeps_doubleRange (fuel : Nat) (first last : Float) (step : Option Float) :
    D.Yields w (Operator.doubleRange fuel first last step)
      (Operator.doubleRange fuel first last step) := by
  unfold Operator.doubleRange
  generalize step.getD _ = k
  dsimp only
  split
  · exact .fail rfl
  · split
    · exact .fail rfl
    · refine (keeps_walkDoubles last k [] first (List.forall_mem_nil _)).bind fun w' _ vs hvs => ?_
      exact keeps_newList hD fun v hv => hD.plain (hvs v hv)

theorem keeps_integralRange (elem : Ty) (first last : Int) (step : Option Int) :
    D.Yields w (Operator.integralRange elem first last step)
      (Operator.integralRange elem first last step) := by
  unfold Operator.integralRange
  generalize step.getD _ = k
  dsimp only
  split
  · exact .fail rfl
  · have hitems : D.Keeps w (fun w vs => ∀ v ∈ vs, D.value w v)
        (Run.ofExcept ((Operator.integralSteps first last k).mapM fun n =>
          elem.cast (.long (Int64.ofInt n))))
        (Run.ofExcept ((Operator.integralSteps first last k).mapM fun n =>
          elem.cast (.long (Int64.ofInt n)))) := by
      have ha := Operator.agree_rangeItems (ρ := .none) elem (Operator.integralSteps first last k)
      refine .ofExcept (fun w' _ vs hvs v hv => ?_) fun e he => ?_
      · rw [hvs] at ha
        cases ha with
        | ok h =>
          cases List.forall₂_same.mp h v hv with
          | plain h => exact value_of_plain hD h
          | buffer h | list h | array h | map h => exact h.elim
      · rw [he] at ha
        cases ha
        assumption
    exact hitems.bind fun w' _ vs hvs => keeps_newList hD hvs

theorem keeps_rangeOver (fuel : Nat) (args : List Value) :
    D.Yields w (Operator.rangeOver fuel args) (Operator.rangeOver fuel args) := by
  unfold Operator.rangeOver
  have he : D.Keeps w (fun _ _ => True)
      (Run.ofExcept (Operator.rangeElement (args.map Value.ty)))
      (Run.ofExcept (Operator.rangeElement (args.map Value.ty))) :=
    .ofExcept (fun _ _ _ _ => trivial) fun _ => Operator.rangeElement_error
  refine he.bind fun w' _ elem _ => ?_
  dsimp only
  split
  · split
    · exact keeps_doubleRange hD _ _ _ _
    · split
      · exact keeps_integralRange hD _ _ _ _
      · exact .fail rfl
  · exact .fail rfl

theorem keeps_operator (op : Operator) (fuel : Nat) (args : List Value) :
    D.Yields w (op.invoke fuel args) (op.invoke fuel args) := by
  have wrong {args : List Value} : D.Yields w (throw (.error (op.wrongCount args.length)))
      (throw (.error (op.wrongCount args.length))) := .throwError hD (error_of_failure rfl)
  cases op with
  | arith op =>
    rcases args with _ | ⟨a, _ | ⟨b, _ | _⟩⟩
    case cons.cons.nil => exact keeps_arith hD op fuel a b
    all_goals exact wrong
  | compare op =>
    rcases args with _ | ⟨a, _ | ⟨b, _ | _⟩⟩
    case cons.cons.nil => exact keeps_comparison hD op fuel a b
    all_goals exact wrong
  | negate =>
    rcases args with _ | ⟨a, _ | _⟩
    case cons.nil =>
      cases hc : a.isContainer with
      | false => exact keeps_plain hD (Operator.agree_negateValue (.plain hc))
      | true =>
        cases a <;> first | exact .throwError hD (error_of_failure rfl) | cases hc
    all_goals exact wrong
  | not =>
    rcases args with _ | ⟨a, _ | _⟩
    case cons.nil => exact .get_bind fun w₁ _ s hs => .pure hs (hD.plain rfl)
    all_goals exact wrong
  | range =>
    rcases args with _ | ⟨a, _ | ⟨b, _ | ⟨c, _ | _⟩⟩⟩
    case cons.cons.nil => exact keeps_rangeOver hD fuel _
    case cons.cons.cons.nil => exact keeps_rangeOver hD fuel _
    all_goals exact wrong

end Operators

/-- Trees evaluate in the same way on both sides, and keep the discipline. -/
structure Follows (D : Discipline W) (host : Host) (f g : Env → Expr → Run Value) : Prop where
  lawful : D.Lawful
  honest : host.Honest D.value D.made
  trees : ∀ {w : W} {env : Env} {e : Expr}, D.tree w env e →
    D.Keeps w (D.result e) (f env e) (g env e)

/-- Calls with values that may be held, as host programs make them. -/
def Calls (D : Discipline W) (call call' : Ref → List Value → Run Value) : Prop :=
  ∀ w f args, (∀ v ∈ args, D.value w v) → D.Yields w (call f args) (call' f args)

def Results {ε α : Type} (E : W → ε → Prop) (R : W → α → Prop) (w : W) : Except ε α → Prop
  | .ok a => R w a
  | .error e => E w e

theorem keeps_runWith (hD : D.Lawful) {ε α : Type} {E : W → ε → Prop} {R : W → α → Prop}
    (hE : ∀ w w', w ≤ w' → ∀ e, E w e → E w' e) (hR : ∀ w w', w ≤ w' → ∀ a, R w a → R w' a)
    {call call' : Ref → List Value → Run Value} (hc : D.Calls call call') {a : HostAction ε α}
    (h : a.Honest D.value D.made E R w) :
    D.Keeps w (Results E R) (Machine.runWith n call a) (Machine.runWith n call' a) := by
  induction h with
  | done h => exact .pure fun w' hw => hR _ w' hw _ h
  | fail h => exact .pure fun w' hw => hE _ w' hw _ h
  | call ha _ ih => exact (Keeps.outcome (hc _ _ _ ha)).bind fun w' hw o ho => ih w' hw o ho
  | perform hv _ ih =>
    exact (Keeps.outcome (keeps_hostOp hD n hv)).bind fun w' hw o ho => ih w' hw o ho
  | newNative hf _ ih => exact (keeps_newFunction hD _ hf).bind fun w' hw v hv => ih w' hw v hv
  | @look w v next _ ih =>
    refine .get_bind fun w' hw s hs => ih w' hw _ (fun content hc => ?_) w' le_rfl s hs
    exact value_content hD hs hc
  | newRecord hf _ ih => exact (keeps_newRecord hD hf).bind fun w' hw r _ => ih w' hw r
  | @readRecord w record i next _ ih =>
    refine .get_bind fun w' hw s hs => ?_
    refine ih w' hw (s.field record i) ?_ w' le_rfl s hs
    show D.value w' ((s.records[record]?.getD [])[i]?.getD .null)
    cases hr : s.records[record]? with
    | none => exact hD.plain rfl
    | some fields =>
      rw [Option.getD_some]
      cases hi : fields[i]? with
      | none => exact hD.plain rfl
      | some v => exact hD.held hs (.field (Array.mem_of_getElem? hr) (List.mem_of_getElem? hi))
  | writeRecord hv _ ih =>
    exact (keeps_writeRecord hD _ _ hv).bind fun w' hw _ _ => ih w' hw

variable {host : Host} {f g : Env → Expr → Run Value}

theorem keeps_invokeHost (hD : D.Lawful) {call call' : Ref → List Value → Run Value}
    (hc : D.Calls call call') (name : String) {body : List Value → HostAction EvalError Value}
    (hb : HonestBody D.value D.made w body) (ha : ∀ v ∈ args, D.value w v) :
    D.Yields w (Machine.invokeHost ⟨host, n, f⟩ call name body args)
      (Machine.invokeHost ⟨host, n, g⟩ call' name body args) := by
  refine (keeps_recordCall hD ⟨name, args⟩ ha).bind fun w₁ hw₁ _ _ => ?_
  refine (keeps_runWith (E := D.error) (R := D.value) hD (fun _ _ hw _ => error_mono hD hw)
    (fun _ _ hw _ => hD.value_mono hw) hc (hb w₁ hw₁ args (values_mono hD hw₁ ha))).bind ?_
  intro w₂ _ r hr
  cases r with
  | ok v => exact .value hD hr
  | error e => exact .throwError hD hr

theorem keeps_operateWith (hD : D.Lawful) {call call' : Ref → List Value → Run Value}
    (hc : D.Calls call call') {op : Operation} (hop : D.callable w (.operator op))
    (ha : ∀ v ∈ args, D.value w v) :
    D.Yields w (Machine.operateWith ⟨host, n, f⟩ call op args)
      (Machine.operateWith ⟨host, n, g⟩ call' op args) := by
  cases op with
  | builtIn op => exact keeps_operator hD op n args
  | host op => exact keeps_invokeHost hD hc op.name (hD.host hop) ha

theorem mem_castArgs {name : String} {rest : Ty} {i : Nat} {params : List Ty}
    (h : Native.castArgs name rest i params args = .ok vs) :
    ∀ u ∈ vs, ∃ v ∈ args, ∃ t : Ty, t.cast v = .ok u := by
  induction args generalizing i params vs with
  | nil => cases h; exact List.forall_mem_nil _
  | cons v args ih =>
    simp only [Native.castArgs] at h
    generalize params.head?.getD rest = t at h
    cases hc : t.cast v with
    | error e => rw [Ty.castNoting, hc] at h; cases h
    | ok u =>
      rw [Ty.castNoting, hc] at h
      generalize hr : Native.castArgs name rest (i + 1) params.tail args = r at h
      cases r with
      | error e => cases h
      | ok us =>
        cases h
        intro x hx
        rcases List.mem_cons.mp hx with rfl | hx
        · exact ⟨v, List.mem_cons_self, t, hc⟩
        · obtain ⟨y, hy, ht⟩ := ih hr x hx
          exact ⟨y, List.mem_cons_of_mem _ hy, ht⟩

theorem mem_bindParams {name : String} {i : Nat} {params : List Param}
    (h : Closure.bindParams name i params args = .ok vs) :
    ∀ u ∈ vs, ∃ v, (v ∈ args ∨ v = .null ∨ ∃ p ∈ params, p.default = some v) ∧
      ∃ t : Ty, t.cast v = .ok u := by
  induction params generalizing i args vs with
  | nil => cases h; exact List.forall_mem_nil _
  | cons p params ih =>
    simp only [Closure.bindParams] at h
    have hv : ∀ v, v = args.head?.getD (p.default.getD .null) →
        v ∈ args ∨ v = .null ∨ ∃ q ∈ p :: params, q.default = some v := by
      rintro v rfl
      cases args with
      | cons a args => exact .inl List.mem_cons_self
      | nil =>
        refine .inr ?_
        cases hd : p.default with
        | none => exact .inl rfl
        | some d => exact .inr ⟨p, List.mem_cons_self, hd⟩
    generalize args.head?.getD _ = v at h hv
    cases hc : p.type.cast v with
    | error e => rw [Ty.castNoting, hc] at h; cases h
    | ok u =>
      rw [Ty.castNoting, hc] at h
      generalize hr : Closure.bindParams name (i + 1) params args.tail = r at h
      cases r with
      | error e => cases h
      | ok us =>
        cases h
        intro x hx
        rcases List.mem_cons.mp hx with rfl | hx
        · exact ⟨v, hv v rfl, p.type, hc⟩
        · obtain ⟨y, hy, ht⟩ := ih hr x hx
          refine ⟨y, ?_, ht⟩
          rcases hy with hy | hy | ⟨q, hq, hd⟩
          · exact .inl (List.mem_of_mem_tail hy)
          · exact .inr (.inl hy)
          · exact .inr (.inr ⟨q, List.mem_cons_of_mem _ hq, hd⟩)

theorem keeps_validateClosure (hD : D.Lawful) {c : Closure} (hc : D.callable w (.closure c))
    (ha : ∀ v ∈ args, D.value w v) :
    D.Keeps w (fun w vs => (∀ v ∈ vs, D.value w v) ∧ (Callable.closure c).Takes vs)
      (c.validate args) (c.validate args) := by
  unfold Closure.validate
  have hcount : D.Keeps w (fun _ _ => True)
      (Run.ofExcept (checkCount c.name c.signature.arity args))
      (Run.ofExcept (checkCount c.name c.signature.arity args)) :=
    .ofExcept (fun _ _ _ _ => trivial) fun _ =>
      failure_of_agree (agree_checkCount c.name c.signature.arity (Value.Likes.refl_same args))
  refine hcount.bind fun w₁ hw₁ _ _ => ?_
  have hbound : D.Keeps w₁ (fun w vs => (∀ v ∈ vs, D.value w v) ∧
        List.Forall₂ (fun (p : Param) v => p.type.Conforms v) c.signature.params vs)
      (Run.ofExcept (Closure.bindParams c.name 1 c.signature.params args))
      (Run.ofExcept (Closure.bindParams c.name 1 c.signature.params args)) := by
    refine .ofExcept (fun w₂ hw₂ vs hvs => ⟨fun u hu => ?_, Closure.bindParams_conforms hvs⟩)
      fun _ => failure_of_agree (Closure.agree_bindParams c.name
        (fun _ _ _ _ => Value.Like.refl_same _) 1 (Value.Likes.refl_same args))
    obtain ⟨v, hv, t, ht⟩ := mem_bindParams hvs u hu
    refine value_cast hD (hD.value_mono (hw₁.trans hw₂) ?_) ht
    rcases hv with hv | rfl | ⟨p, hp, hd⟩
    · exact ha v hv
    · exact hD.plain rfl
    · exact hD.default hc hp hd
  refine hbound.bind fun w₂ hw₂ vs hvs => ?_
  have hslots : List.Forall₂ (fun (slot : Slot) v => slot.type.Conforms v)
      (c.signature.params.map fun p => ⟨p.name, p.type, false⟩) vs :=
    List.forall₂_map_left_iff.mpr hvs.2
  unfold Callable.Takes Signature.layout
  dsimp only
  cases c.signature.rest with
  | none =>
    refine .pure fun w₃ hw₃ => ⟨values_mono hD hw₃ hvs.1, ?_⟩
    simpa using hslots
  | some name =>
    have hd : ∀ v ∈ args.drop c.signature.params.length, D.value w₂ v := fun v hv =>
      hD.value_mono (hw₁.trans hw₂) (ha v (List.mem_of_mem_drop hv))
    have hlist : D.Keeps w₂ (fun w v => D.value w v ∧ (Ty.list .any).Conforms v)
        (Run.newList (args.drop c.signature.params.length))
        (Run.newList (args.drop c.signature.params.length)) := by
      intro w₃ hw₃ s hs
      obtain ⟨w₄, hw₄, hs₄, hr⟩ := hD.newList hs (values_mono hD hw₃ hd)
      exact ⟨rfl, .ok hw₄ hs₄ ⟨hr, rfl⟩⟩
    refine hlist.bind fun w₃ hw₃ v hv => .pure fun w₄ hw₄ => ⟨fun u hu => ?_, ?_⟩
    · rcases List.mem_append.mp hu with hu | hu
      · exact hD.value_mono (hw₃.trans hw₄) (hvs.1 u hu)
      · obtain rfl := List.mem_singleton.mp hu
        exact hD.value_mono hw₄ hv.1
    · exact List.rel_append hslots (.cons hv.2 .nil)

theorem keeps_validateOperator (hD : D.Lawful) (op : Operation) (ha : ∀ v ∈ args, D.value w v) :
    D.Keeps w (fun w vs => ∀ v ∈ vs, D.value w v) (Run.ofExcept (op.validate args))
      (Run.ofExcept (op.validate args)) := by
  refine .ofExcept (fun w' hw vs hvs => ?_)
    fun _ => failure_of_agree (op.agree_validate (Value.Likes.refl_same args))
  unfold Operation.validate at hvs
  split at hvs
  · cases hvs
    exact values_mono hD hw ha
  · cases hvs

theorem keeps_validate (hD : D.Lawful) {c : Callable} (hc : D.callable w c)
    (ha : ∀ v ∈ args, D.value w v) :
    D.Keeps w (fun w vs => (∀ v ∈ vs, D.value w v) ∧ c.Takes vs) (c.validate args)
      (c.validate args) := by
  cases c with
  | native c =>
    refine .ofExcept (fun w' hw vs hvs => ⟨fun u hu => ?_, trivial⟩)
      fun _ => failure_of_agree (c.agree_validate (Value.Likes.refl_same args))
    unfold Native.validate at hvs
    cases hcount : checkCount c.name c.arity args with
    | error e => rw [hcount] at hvs; cases hvs
    | ok =>
      rw [hcount] at hvs
      obtain ⟨v, hv, t, ht⟩ := mem_castArgs hvs u hu
      exact value_cast hD (hD.value_mono hw (ha v hv)) ht
  | operator op => exact (keeps_validateOperator hD op ha).weaken fun _ _ _ h => ⟨h, trivial⟩
  | closure c => exact keeps_validateClosure hD hc ha

/-- What is done with a function and the arguments that it has validated. -/
theorem keeps_validated (hD : D.Lawful) {α : Type} {post : W → α → Prop} (r : Ref)
    (ha : ∀ v ∈ args, D.value w v) {x y : Callable → List Value → Run α}
    (h : ∀ w', w ≤ w' → ∀ c vs, D.callable w' c → (∀ v ∈ vs, D.value w' v) → c.Takes vs →
      D.Keeps w' post (x c vs) (y c vs)) :
    D.Keeps w post
      (do
        let c := (← get).callable r
        x c (← c.validate args))
      (do
        let c := (← get).callable r
        y c (← c.validate args)) := by
  refine .get_bind fun w₁ hw₁ s hs => ?_
  have hc := hD.function r hs
  refine (keeps_validate hD hc (values_mono hD hw₁ ha) w₁ le_rfl s hs).bind fun w₂ hw₂ vs hvs => ?_
  exact h w₂ (hw₁.trans hw₂) _ vs (hD.callable_mono hw₂ hc) hvs.1 hvs.2

variable (hf : D.Follows host f g)
include hf

theorem keeps_invokeClosure {c : Closure} (hc : D.callable w (.closure c))
    (ha : ∀ v ∈ args, D.value w v) (ht : (Callable.closure c).Takes args) :
    D.Yields w (Machine.invokeClosure ⟨host, n, f⟩ c args)
      (Machine.invokeClosure ⟨host, n, g⟩ c args) := by
  have hD := hf.lawful
  intro w₁ hw₁ s hs
  have hl : args.length = c.signature.layout.length := by
    unfold Callable.Takes at ht
    exact ht.length_eq.symm
  obtain ⟨w₂, hw₂, hs₂, htree⟩ :=
    hD.enterClosure (hD.callable_mono hw₁ hc) ht (values_mono hD hw₁ ha) hs
  have hbody : D.Yields w₂
      (Run.catchReturn (f (⟨c.signature.layout, s.cells.size⟩ :: c.env) c.body) >>= fun v =>
        Run.ofExcept (c.signature.ret.castNoting ("return value of " ++ c.name) v))
      (Run.catchReturn (g (⟨c.signature.layout, s.cells.size⟩ :: c.env) c.body) >>= fun v =>
        Run.ofExcept (c.signature.ret.castNoting ("return value of " ++ c.name) v)) := by
    have he : D.Yields w₂ (f _ c.body) (g _ c.body) := (hf.trees htree).weaken fun _ _ _ h => h.1
    refine (he.catchReturn hD).bind fun w₃ _ v hv => ?_
    exact (Keeps.castNoting hD hv _ _).weaken fun _ _ _ h => h.1
  -- the new frame is laid and filled before the body runs
  have hframe (h : Env → Expr → Run Value) := Machine.invokeClosure_eq ⟨host, n, h⟩ hl s
  obtain ⟨hsame, hlands⟩ := hbody w₂ le_rfl _ hs₂
  constructor
  · rw [hframe, hframe]
    exact hsame
  · rw [hframe]
    exact hlands.mono hw₂ fun _ _ _ h => h

theorem keeps_invokeWithin {c : Callable} (hc : D.callable w c) (ha : ∀ v ∈ args, D.value w v)
    (ht : c.Takes args) (k : Nat) :
    D.Yields w (Machine.invokeWithin ⟨host, n, f⟩ k c args)
      (Machine.invokeWithin ⟨host, n, g⟩ k c args) := by
  have hD := hf.lawful
  induction k generalizing w c args with
  | zero => exact .halt rfl
  | succ k ih =>
    have hcall : D.Calls _ _ := fun w' r vs hvs => keeps_validated hD r hvs
      (x := Machine.invokeWithin ⟨host, n, f⟩ k) (y := Machine.invokeWithin ⟨host, n, g⟩ k)
      fun w₁ _ c us hc hus ht => ih hc hus ht
    cases c with
    | native c => exact keeps_invokeHost hD hcall c.name (hD.native hc) ha
    | operator op => exact keeps_operateWith hD hcall hc ha
    | closure c => exact keeps_invokeClosure hf hc ha ht

theorem keeps_call : D.Calls (Machine.call ⟨host, n, f⟩) (Machine.call ⟨host, n, g⟩) := by
  intro w r args ha
  exact keeps_validated hf.lawful r ha fun w₁ _ c vs hc hvs ht => keeps_invokeWithin hf hc hvs ht n

theorem keeps_operate {op : Operation} (hop : D.callable w (.operator op))
    (ha : ∀ v ∈ args, D.value w v) :
    D.Yields w (Machine.operate ⟨host, n, f⟩ op args) (Machine.operate ⟨host, n, g⟩ op args) :=
  keeps_operateWith hf.lawful (keeps_call hf) hop ha

theorem keeps_callForResult (r : Ref) (ha : ∀ v ∈ args, D.value w v) :
    D.Yields w (Machine.callForResult ⟨host, n, f⟩ r args)
      (Machine.callForResult ⟨host, n, g⟩ r args) := by
  have hD := hf.lawful
  refine .get_bind fun w₁ hw₁ s hs => ?_
  have hc := hD.function r hs
  refine (keeps_validate hD hc (values_mono hD hw₁ ha) w₁ le_rfl s hs).bind ?_
  intro w₂ hw₂ vs hvs
  refine (keeps_invokeWithin hf (hD.callable_mono hw₂ hc) hvs.1 hvs.2 n).bind fun w₃ _ v hv => ?_
  split
  · exact .value hD (hD.plain rfl)
  · exact .value hD hv

theorem keeps_dispatch {α : Type} {R : W → α → Prop} (hR : ∀ w w', w ≤ w' → ∀ a, R w a → R w' a)
    (operation : String) {a : HostAction HostFault α} (h : a.Decent D.value D.made R w) :
    D.Keeps w R (Machine.dispatch ⟨host, n, f⟩ operation a)
      (Machine.dispatch ⟨host, n, g⟩ operation a) := by
  refine (keeps_runWith hf.lawful (fun _ _ _ _ _ => trivial) hR (keeps_call hf) h).bind ?_
  intro w' _ r hr
  cases r with
  | ok v => exact .pure fun w₁ hw₁ => hR _ w₁ hw₁ v hr
  | error fault => exact .fail rfl

theorem keeps_dispatchValue (operation : String) {a : HostAction HostFault Value}
    (h : a.Decent D.value D.made D.value w) :
    D.Yields w (Machine.dispatch ⟨host, n, f⟩ operation a)
      (Machine.dispatch ⟨host, n, g⟩ operation a) :=
  keeps_dispatch (R := D.value) hf (fun _ _ hw _ => hf.lawful.value_mono hw) operation h

end Discipline

end ExprCore
