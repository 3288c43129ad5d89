import ExprCore.Eval
import ExprCore.Proofs.Translation.Computations
import ExprCore.Proofs.Watching

/-!
Evaluation of translated trees. On the translated store a translated tree evaluates as the tree does on
the store, whatever the tree and the store.
-/

namespace ExprCore
set_option autoImplicit false

namespace Translation

variable {T : Translation} {host : Host} {n : Nat} {f g : Env → Expr → Run Value} {env : Env}

/-- The second evaluation of translated trees commutes with the first of trees. -/
def Evaluates (T : Translation) (f g : Env → Expr → Run Value) : Prop :=
  ∀ env e, T.Commutes (f env e) (g env (T.tree env.layouts e))

theorem Lawful.type_tree (hT : T.Lawful) (layouts : List Layout) (e : Expr) :
    (T.tree layouts e).type = e.type := by
  induction e using Expr.childInduction generalizing layouts with
  | step e ih =>
    by_cases hv : ∃ b, e = .var b
    · obtain ⟨b, rfl⟩ := hv
      obtain ⟨level, hb⟩ := hT.var layouts b
      rw [hb]
      rfl
    · rw [hT.node fun b he => hv ⟨b, he⟩]
      refine Expr.type_mapChildren fun x hx hh => ?_
      rw [hh]
      exact ih x hx layouts

theorem Lawful.types_targets (hT : T.Lawful) (layouts : List Layout) (e : Expr) :
    (T.tree layouts e).targets.map Expr.type = e.targets.map Expr.type := by
  by_cases hv : ∃ b, e = .var b
  · obtain ⟨b, rfl⟩ := hv
    obtain ⟨level, hb⟩ := hT.var layouts b
    rw [hb]
    rfl
  · rw [hT.node fun b he => hv ⟨b, he⟩, Expr.targets_mapChildren, List.map_map]
    exact List.map_congr_left fun x _ => hT.type_tree layouts x

section Calls

theorem commutes_validate (c : Callable) (args : List Value) :
    T.Commutes (c.validate args) ((T.callable c).validate args) := by
  cases c with
  | native | operator => exact .ofExcept _
  | closure c =>
    show T.Commutes (c.validate args) (c.validate args)
    unfold Closure.validate
    refine (Commutes.ofExcept _).bind fun _ => (Commutes.ofExcept _).bind fun bound => ?_
    cases c.signature.rest with
    | none => exact .pure bound
    | some _ => exact Commutes.bind (fun _ => rfl) fun v => .pure _

/-- What is done with a function and the arguments that it has validated. -/
theorem commutes_validated {α : Type} {x y : Callable → List Value → Run α}
    (h : ∀ c vs, T.Commutes (x c vs) (y (T.callable c) vs)) (r : Ref) (args : List Value) :
    T.Commutes
      (do
        let c := (← get).callable r
        x c (← c.validate args))
      (do
        let c := (← get).callable r
        y c (← c.validate args)) := by
  refine .get_bind fun s => ?_
  rw [callable_store]
  exact (commutes_validate _ args).bind fun vs => h _ vs

theorem commutes_fill (base : Ref) (vs : List Value) :
    T.Commutes (Machine.fill base vs) (Machine.fill base vs) := by
  induction vs generalizing base with
  | nil => exact .pure ()
  | cons v vs ih => exact Commutes.bind (fun _ => rfl) fun _ => ih (base + 1)

theorem content?_store (s : Store) (v : Value) : (T.store s).content? v = s.content? v := by
  cases v <;> rfl

theorem commutes_runWith {ε α : Type} {call call' : Ref → List Value → Run Value}
    (hc : ∀ r args, T.Commutes (call r args) (call' r args)) (a : HostAction ε α) :
    T.Commutes (Machine.runWith n call a) (Machine.runWith n call' a) := by
  induction a with
  | done | fail => exact .pure _
  | call r args next ih => exact (hc r args).outcome.bind ih
  | perform op next ih => exact (commutes_hostOp op).outcome.bind ih
  | newNative f next ih => exact (commutes_newFunction _ (.native f)).bind ih
  | look v next ih =>
    refine .get_bind fun s => ?_
    rw [content?_store]
    exact ih _
  | newRecord fields next ih => exact Commutes.bind (fun _ => rfl) ih
  | readRecord r i next ih => exact .get_bind fun s => ih (s.field r i)
  | writeRecord r i v next ih => exact Commutes.bind (fun _ => rfl) ih

theorem commutes_invokeHost {call call' : Ref → List Value → Run Value}
    (hc : ∀ r args, T.Commutes (call r args) (call' r args)) (name : String)
    (body : List Value → HostAction EvalError Value) (args : List Value) :
    T.Commutes (Machine.invokeHost ⟨host, n, f⟩ call name body args)
      (Machine.invokeHost ⟨host, n, g⟩ call' name body args) := by
  refine Commutes.bind (fun _ => rfl) fun _ => (commutes_runWith hc _).bind fun r => ?_
  cases r with
  | ok v => exact .pure v
  | error e => exact .throw _

theorem commutes_operateWith {call call' : Ref → List Value → Run Value}
    (hc : ∀ r args, T.Commutes (call r args) (call' r args)) (op : Operation) (args : List Value) :
    T.Commutes (Machine.operateWith ⟨host, n, f⟩ call op args)
      (Machine.operateWith ⟨host, n, g⟩ call' op args) := by
  cases op with
  | builtIn op => exact commutes_operator op n args
  | host op => exact commutes_invokeHost hc op.name op.body args

variable (h : T.Evaluates f g)
include h

theorem commutes_invokeClosure (c : Closure) (args : List Value) :
    T.Commutes (Machine.invokeClosure ⟨host, n, f⟩ c args)
      (Machine.invokeClosure ⟨host, n, g⟩
        { c with body := T.tree (c.signature.layout :: c.env.layouts) c.body } args) := by
  refine Commutes.bind (fun _ => rfl) fun base => (commutes_fill base _).bind fun _ => ?_
  exact (h (⟨_, base⟩ :: c.env) c.body).catchReturn.bind fun v => .ofExcept _

theorem commutes_invokeWithin (k : Nat) (c : Callable) (args : List Value) :
    T.Commutes (Machine.invokeWithin ⟨host, n, f⟩ k c args)
      (Machine.invokeWithin ⟨host, n, g⟩ k (T.callable c) args) := by
  induction k generalizing c args with
  | zero => exact .throw _
  | succ k ih =>
    have hcall := commutes_validated (x := Machine.invokeWithin ⟨host, n, f⟩ k)
      (y := Machine.invokeWithin ⟨host, n, g⟩ k) ih
    cases c with
    | native c => exact commutes_invokeHost hcall c.name c.body args
    | operator op => exact commutes_operateWith hcall op args
    | closure c => exact commutes_invokeClosure h c args

theorem commutes_invoke (c : Callable) (args : List Value) :
    T.Commutes (Machine.invoke ⟨host, n, f⟩ c args)
      (Machine.invoke ⟨host, n, g⟩ (T.callable c) args) := commutes_invokeWithin h n c args

theorem commutes_call (r : Ref) (args : List Value) :
    T.Commutes (Machine.call ⟨host, n, f⟩ r args) (Machine.call ⟨host, n, g⟩ r args) :=
  commutes_validated (commutes_invoke h) r args

theorem commutes_operate (op : Operation) (args : List Value) :
    T.Commutes (Machine.operate ⟨host, n, f⟩ op args) (Machine.operate ⟨host, n, g⟩ op args) :=
  commutes_operateWith (commutes_call h) op args

theorem commutes_callForResult (r : Ref) (args : List Value) :
    T.Commutes (Machine.callForResult ⟨host, n, f⟩ r args)
      (Machine.callForResult ⟨host, n, g⟩ r args) := by
  refine .get_bind fun s => ?_
  have hret : (T.callable (s.callable r)).ret = (s.callable r).ret := by
    cases s.callable r <;> rfl
  rw [callable_store]
  dsimp only
  rw [hret]
  refine (commutes_validate _ args).bind fun vs => (commutes_invoke h _ vs).bind fun v => ?_
  split <;> exact .pure _

theorem commutes_dispatch {α : Type} (operation : String) (a : HostAction HostFault α) :
    T.Commutes (Machine.dispatch ⟨host, n, f⟩ operation a)
      (Machine.dispatch ⟨host, n, g⟩ operation a) := by
  refine (commutes_runWith (commutes_call h) a).bind fun r => ?_
  cases r with
  | ok v => exact .pure v
  | error fault => exact .fail _

end Calls

section Places

theorem commutes_memberPlace (kind : MemberKind) (v : Value) (name : String) :
    T.Commutes (Machine.memberPlace kind v name) (Machine.memberPlace kind v name) := by
  cases kind with
  | hostField | mapEntry => cases v <;> first | exact .pure _ | exact .fail _
  | classMember =>
    cases v with
    | object className r =>
      refine .get_bind fun s => ?_
      rw [instanceAt_store]
      cases (s.instanceAt r).member? name with
      | some _ => exact .pure _
      | none => exact .fail _
    | _ => exact .fail _

variable (hT : T.Lawful) (h : T.Evaluates f g)
include h

theorem commutes_read (p : Place) :
    T.Commutes (Machine.read ⟨host, n, f⟩ p) (Machine.read ⟨host, n, g⟩ p) := by
  cases p with
  | cell r => exact fun _ => rfl
  | element c key =>
    refine .get_bind fun s => ?_
    rw [get_store]
    exact .ofExcept _
  | hostField | staticField => exact commutes_dispatch h _ _

theorem commutes_store (p : Place) (v : Value) :
    T.Commutes (Machine.store ⟨host, n, f⟩ p v) (Machine.store ⟨host, n, g⟩ p v) := by
  cases p with
  | cell r =>
    exact (Commutes.ofExcept _).bind fun w => Commutes.bind (fun _ => rfl) fun _ => .pure w
  | element c key => exact commutes_set c key v
  | hostField | staticField => exact (commutes_dispatch h _ _).bind fun _ => .pure v

theorem commutes_write (p : Place) (v : Value) :
    T.Commutes (Machine.write ⟨host, n, f⟩ p v) (Machine.write ⟨host, n, g⟩ p v) := by
  have hstore : T.Commutes (Machine.store ⟨host, n, f⟩ p v) (Machine.store ⟨host, n, g⟩ p v) :=
    commutes_store h p v
  cases p with
  | cell r name t final =>
    cases final with
    | true => exact .fail _
    | false => exact hstore
  | _ => exact hstore

theorem commutes_writeAs (mode : AssignMode) (p : Place) (v : Value) :
    T.Commutes (Machine.writeAs ⟨host, n, f⟩ mode p v)
      (Machine.writeAs ⟨host, n, g⟩ mode p v) := by
  cases mode with
  | assign => exact commutes_write h p v
  | declare => exact commutes_store h p v

include hT

theorem commutes_place (env : Env) (e : Expr) :
    T.Commutes (Machine.place ⟨host, n, f⟩ env e)
      (Machine.place ⟨host, n, g⟩ env (T.tree env.layouts e)) := by
  cases e with
  | var b =>
    obtain ⟨level, hb⟩ := hT.var env.layouts b
    rw [hb]
    have hcell : T.Commutes (Machine.cellOf env b) (Machine.cellOf env b) := by
      unfold Machine.cellOf
      cases env.cell? b.depth b.address with
      | some r => exact .pure r
      | none => exact .throw _
    exact hcell.bind fun r => .pure _
  | index base key =>
    rw [hT.node (by nofun)]
    exact (h env base).bind fun v => (h env key).bind fun k => (Commutes.ofExcept _).bind fun c =>
      .pure _
  | member kind object name =>
    rw [hT.node (by nofun)]
    exact (h env object).bind fun v => commutes_memberPlace kind v name
  | staticField className field =>
    rw [hT.node (by nofun)]
    exact .pure _
  | _ =>
    rw [hT.node (by nofun)]
    exact .fail _

end Places

section Nodes

variable (h : T.Evaluates f g) (env : Env)
include h

theorem commutes_evalAll (es : List Expr) :
    T.Commutes (Machine.evalAll ⟨host, n, f⟩ env es)
      (Machine.evalAll ⟨host, n, g⟩ env (es.map (T.tree env.layouts))) := by
  induction es with
  | nil => exact .pure []
  | cons e es ih => exact (h env e).bind fun v => ih.bind fun vs => .pure (v :: vs)

theorem commutes_evalElements (elem : Ty) (es : List Expr) :
    T.Commutes (Machine.evalElements ⟨host, n, f⟩ env elem es)
      (Machine.evalElements ⟨host, n, g⟩ env elem (es.map (T.tree env.layouts))) := by
  induction es with
  | nil => exact .pure []
  | cons e es ih =>
    exact (h env e).bind fun v => (Commutes.ofExcept _).bind fun u => ih.bind fun vs =>
      .pure (u :: vs)

theorem commutes_evalEntries (t : Ty) (xs : List (Expr × Expr)) :
    T.Commutes (Machine.evalEntries ⟨host, n, f⟩ env t xs)
      (Machine.evalEntries ⟨host, n, g⟩ env t
        (xs.map fun (key, v) => (T.tree env.layouts key, T.tree env.layouts v))) := by
  induction xs with
  | nil => exact .pure []
  | cons x xs ih =>
    exact (h env x.1).bind fun k => (Commutes.ofExcept _).bind fun key => (h env x.2).bind fun v =>
      (Commutes.ofExcept _).bind fun u => ih.bind fun us => .pure ((key, u) :: us)

theorem commutes_evalSequence (last : Value) (es : List Expr) :
    T.Commutes (Machine.evalSequence ⟨host, n, f⟩ env last es)
      (Machine.evalSequence ⟨host, n, g⟩ env last (es.map (T.tree env.layouts))) := by
  induction es generalizing last with
  | nil => exact .pure last
  | cons e es ih => exact (h env e).bind ih

theorem commutes_truthOf (e : Expr) :
    T.Commutes (Machine.truthOf ⟨host, n, f⟩ env e)
      (Machine.truthOf ⟨host, n, g⟩ env (T.tree env.layouts e)) :=
  (h env e).bind fun v => .get_bind fun s => by
    rw [truth_store]
    exact .pure _

theorem commutes_evalLogical (op : Connective) (lhs rhs : Expr) :
    T.Commutes (Machine.evalLogical ⟨host, n, f⟩ env op lhs rhs)
      (Machine.evalLogical ⟨host, n, g⟩ env op (T.tree env.layouts lhs)
        (T.tree env.layouts rhs)) := by
  refine (commutes_truthOf h env lhs).bind fun p => ?_
  cases op <;> cases p <;>
    first | exact .pure _ | exact (commutes_truthOf h env rhs).map Value.bool

theorem commutes_evalConditional (cond a b : Expr) (t : Ty) :
    T.Commutes (Machine.evalConditional ⟨host, n, f⟩ env cond a b t)
      (Machine.evalConditional ⟨host, n, g⟩ env (T.tree env.layouts cond)
        (T.tree env.layouts a) (T.tree env.layouts b) t) := by
  refine (commutes_truthOf h env cond).bind fun p => ?_
  cases p with
  | true => exact (h env a).bind fun v => .ofExcept _
  | false => exact (h env b).bind fun v => .ofExcept _

theorem commutes_callMethod (v : Value) (method : String) (args : List Value) :
    T.Commutes (Machine.callMethod ⟨host, n, f⟩ v method args)
      (Machine.callMethod ⟨host, n, g⟩ v method args) := by
  cases v with
  | host => exact commutes_dispatch h _ _
  | object className r =>
    refine .get_bind fun s => ?_
    rw [instanceAt_store]
    cases (s.instanceAt r).member? method with
    | none => exact .fail _
    | some c =>
      refine Commutes.bind (fun _ => rfl) fun u => ?_
      cases u with
      | function info r => exact commutes_callForResult h r args
      | _ => exact .fail _
  | _ => exact .fail _

theorem commutes_evalLoop (cond body : Expr) (k : Nat) :
    T.Commutes (Machine.evalLoop ⟨host, n, f⟩ env cond body k)
      (Machine.evalLoop ⟨host, n, g⟩ env (T.tree env.layouts cond) (T.tree env.layouts body) k) := by
  induction k with
  | zero => exact .throw _
  | succ k ih =>
    refine (commutes_truthOf h env cond).bind fun p => ?_
    cases p with
    | true => exact (h env body).bind fun _ => ih
    | false => exact .pure _

theorem commutes_evalBlock (layout : Layout) (body : List Expr) (ret : Ty) :
    T.Commutes (Machine.evalBlock ⟨host, n, f⟩ env layout body ret)
      (Machine.evalBlock ⟨host, n, g⟩ env layout (body.map (T.tree (layout :: env.layouts)))
        ret) := by
  unfold Machine.evalBlock Run.enter
  rw [bind_assoc, bind_assoc]
  refine Commutes.bind (fun _ => rfl) fun base => ?_
  exact (commutes_evalSequence h (⟨layout, base⟩ :: env) .void body).catchReturn.bind fun v =>
    .ofExcept _

omit h in
theorem commutes_makeClosure (hT : T.Lawful) (signature : Signature) (body : Expr) (env : Env) :
    T.Commutes (Machine.makeClosure signature body env)
      (Machine.makeClosure signature (T.body (signature.layout :: env.layouts) body) env) := by
  unfold Machine.makeClosure
  dsimp only
  rw [← hT.made]
  exact commutes_newFunction _ (.closure _)

theorem commutes_evalOperator (op : Operation) (operands : List Expr) (t : Ty) :
    T.Commutes (Machine.evalOperator ⟨host, n, f⟩ env op operands t)
      (Machine.evalOperator ⟨host, n, g⟩ env op (operands.map (T.tree env.layouts)) t) := by
  refine (commutes_evalAll h env operands).bind fun args => (Commutes.ofExcept _).bind fun vs => ?_
  exact (commutes_operate h op vs).bind fun v => .ofExcept _

theorem commutes_evalSlice (base lo hi : Expr) :
    T.Commutes (Machine.evalSlice ⟨host, n, f⟩ env base lo hi)
      (Machine.evalSlice ⟨host, n, g⟩ env (T.tree env.layouts base) (T.tree env.layouts lo)
        (T.tree env.layouts hi)) :=
  (h env base).bind fun _ => (Commutes.ofExcept _).bind fun c =>
    (h env lo).bind fun _ => (Commutes.ofExcept _).bind fun i =>
    (h env hi).bind fun _ => (Commutes.ofExcept _).bind fun j => commutes_slice c i j

theorem commutes_evalMethodCall (receiver : Expr) (method : String) (args : List Expr) :
    T.Commutes (Machine.evalMethodCall ⟨host, n, f⟩ env receiver method args)
      (Machine.evalMethodCall ⟨host, n, g⟩ env (T.tree env.layouts receiver) method
        (args.map (T.tree env.layouts))) :=
  (h env receiver).bind fun v => (commutes_evalAll h env args).bind fun vs =>
    commutes_callMethod h v method vs

theorem commutes_evalApply (callee : Expr) (args : List Expr) :
    T.Commutes (Machine.evalApply ⟨host, n, f⟩ env callee args)
      (Machine.evalApply ⟨host, n, g⟩ env (T.tree env.layouts callee)
        (args.map (T.tree env.layouts))) := by
  refine (h env callee).bind fun v => ?_
  cases v with
  | function info r =>
    exact (commutes_evalAll h env args).bind fun vs => commutes_callForResult h r vs
  | _ => exact .fail _

theorem commutes_evalArrayAlloc (elem : Ty) (length : Expr) :
    T.Commutes (Machine.evalArrayAlloc ⟨host, n, f⟩ env elem length)
      (Machine.evalArrayAlloc ⟨host, n, g⟩ env elem (T.tree env.layouts length)) := by
  refine (h env length).bind fun v => (Commutes.ofExcept _).bind fun k => ?_
  split
  · exact .fail _
  · exact fun _ => rfl

theorem commutes_evalExtendList (list : Expr) (elem : Ty) (items : List Expr) :
    T.Commutes (Machine.evalExtendList ⟨host, n, f⟩ env list elem items)
      (Machine.evalExtendList ⟨host, n, g⟩ env (T.tree env.layouts list) elem
        (items.map (T.tree env.layouts))) := by
  refine (h env list).bind fun v => ?_
  cases v with
  | list r =>
    exact (commutes_evalElements h env elem items).bind fun vs => .get_bind fun s =>
      Commutes.bind (fun _ => rfl) fun _ => .pure _
  | _ => exact .fail _

theorem commutes_evalExtendMap (map : Expr) (value : Ty) (entries : List (Expr × Expr)) :
    T.Commutes (Machine.evalExtendMap ⟨host, n, f⟩ env map value entries)
      (Machine.evalExtendMap ⟨host, n, g⟩ env (T.tree env.layouts map) value
        (entries.map fun (key, v) => (T.tree env.layouts key, T.tree env.layouts v))) := by
  refine (h env map).bind fun v => ?_
  cases v with
  | map r =>
    exact (commutes_evalEntries h env value entries).bind fun es => .get_bind fun s =>
      Commutes.bind (fun _ => rfl) fun _ => .pure _
  | _ => exact .fail _

theorem commutes_evalRaise (message : Expr) :
    T.Commutes (Machine.evalRaise ⟨host, n, f⟩ env message)
      (Machine.evalRaise ⟨host, n, g⟩ env (T.tree env.layouts message)) := by
  refine (h env message).bind fun v => .get_bind fun s => ?_
  rw [display_store]
  exact (Commutes.ofOption _).bind fun t => .fail _

theorem commutes_evalAssign (hT : T.Lawful) (mode : AssignMode) (target value : Expr) :
    T.Commutes (Machine.evalAssign ⟨host, n, f⟩ env mode target value)
      (Machine.evalAssign ⟨host, n, g⟩ env mode (T.tree env.layouts target)
        (T.tree env.layouts value)) :=
  (commutes_place hT h env target).bind fun p => (h env value).bind fun v =>
    commutes_writeAs h mode p v

theorem commutes_evalCompound (hT : T.Lawful) (op : Operation) (target value : Expr)
    (result : Option Ty) :
    T.Commutes (Machine.evalCompound ⟨host, n, f⟩ env op target value result)
      (Machine.evalCompound ⟨host, n, g⟩ env op (T.tree env.layouts target)
        (T.tree env.layouts value) result) := by
  refine (commutes_place hT h env target).bind fun p => (commutes_read h p).bind fun old => ?_
  refine (h env value).bind fun v => (Commutes.ofExcept _).bind fun args => ?_
  exact (commutes_operate h op args).bind fun w => (Commutes.ofExcept _).bind fun u =>
    commutes_write h p u

theorem commutes_evalStep (hT : T.Lawful) (kind : Step) (target : Expr) :
    T.Commutes (Machine.evalStep ⟨host, n, f⟩ env kind target)
      (Machine.evalStep ⟨host, n, g⟩ env kind (T.tree env.layouts target)) := by
  refine (commutes_place hT h env target).bind fun p => (commutes_read h p).bind fun old => ?_
  exact (commutes_arith .add n old _).bind fun u => (commutes_write h p u).bind fun w => .pure _

theorem commutes_evalTry (hT : T.Lawful) (body binding handler : Expr) (t : Ty) :
    T.Commutes (Machine.evalTry ⟨host, n, f⟩ env body binding handler t)
      (Machine.evalTry ⟨host, n, g⟩ env (T.tree env.layouts body) (T.tree env.layouts binding)
        (T.tree env.layouts handler) t) := by
  refine (h env body).outcome.bind fun o => ?_
  cases o with
  | ok v => exact .ofExcept _
  | error e =>
    dsimp only
    cases e.returned? with
    | some v => exact (Commutes.throw _).bind fun v => .ofExcept _
    | none =>
      refine Commutes.bind (Commutes.bind (commutes_place hT h env binding) fun p => ?_)
        fun v => .ofExcept _
      exact (commutes_store h p _).bind fun _ => h env handler

end Nodes

theorem commutes_node (hT : T.Lawful) (h : T.Evaluates f g) (env : Env) {e : Expr}
    (hv : ∀ b, e ≠ .var b) :
    T.Commutes (Machine.evalNode ⟨host, n, f⟩ env e)
      (Machine.evalNode ⟨host, n, g⟩ env (e.mapChildren (T.child env.layouts))) := by
  have ht := hT.type_tree env.layouts e
  have hplace : T.Commutes (Machine.evalPlace ⟨host, n, f⟩ env e)
      (Machine.evalPlace ⟨host, n, g⟩ env (T.tree env.layouts e)) :=
    (commutes_place hT h env e).bind fun p => commutes_read h p
  rw [hT.node hv] at ht hplace
  cases e with
  | var b => exact absurd rfl (hv b)
  | index | member | staticField => exact hplace
  -- These nodes convert their values to their own types, which stay under translation.
  | operator form op operands =>
    simp only [Expr.mapChildren] at ht ⊢
    simp only [Machine.evalNode, ht]
    exact commutes_evalOperator h env op operands _
  | conditional cond a b =>
    simp only [Expr.mapChildren] at ht ⊢
    simp only [Machine.evalNode, ht]
    exact commutes_evalConditional h env cond a b _
  | tryCatch body binding handler =>
    simp only [Expr.mapChildren] at ht ⊢
    simp only [Machine.evalNode, ht]
    exact commutes_evalTry h env hT body binding handler _
  | lambda signature body =>
    exact commutes_makeClosure hT signature body env
  | assign mode target value =>
    exact commutes_evalAssign h env hT mode target value
  | compound op target value t =>
    exact commutes_evalCompound h env hT op target value t
  | step kind target =>
    exact commutes_evalStep h env hT kind target
  | literal | name | scopeRef =>
    exact fun _ => rfl
  | logical op lhs rhs =>
    exact commutes_evalLogical h env op lhs rhs
  | sequence items =>
    exact commutes_evalSequence h env .void items
  | before first second =>
    exact (h env first).bind fun v => (h env second).bind fun _ => .pure v
  | cast t operand =>
    exact (h env operand).bind fun v => .ofExcept _
  | instanceOf operand t =>
    exact (h env operand).bind fun v => .pure _
  | slice base lo hi =>
    exact commutes_evalSlice h env base lo hi
  | methodCall receiver method args =>
    exact commutes_evalMethodCall h env receiver method args
  | staticCall className method args =>
    exact (commutes_evalAll h env args).bind fun vs => commutes_dispatch h _ _
  | new className args =>
    exact (commutes_evalAll h env args).bind fun vs => commutes_dispatch h _ _
  | apply callee args =>
    exact commutes_evalApply h env callee args
  | block layout body ret =>
    exact commutes_evalBlock h env layout body ret
  | earlyReturn value =>
    exact (h env value).bind fun v => .fail _
  | arrayLiteral elem items =>
    exact (commutes_evalAll h env items).bind fun vs => (Commutes.ofExcept _).bind fun us _ => rfl
  | arrayAlloc elem length =>
    exact commutes_evalArrayAlloc h env elem length
  | listLiteral elem items =>
    exact (commutes_evalElements h env elem items).bind fun vs _ => rfl
  | extendList list elem items =>
    exact commutes_evalExtendList h env list elem items
  | mapLiteral value entries =>
    exact (commutes_evalEntries h env value entries).bind fun es _ => rfl
  | extendMap map value entries =>
    exact commutes_evalExtendMap h env map value entries
  | loop cond body =>
    exact commutes_evalLoop h env cond body n
  | raise message =>
    exact commutes_evalRaise h env message

/-- The step of evaluation: a translated node evaluates as the node does, if smaller trees do. -/
theorem commutes_evalNode (hT : T.Lawful) (h : T.Evaluates f g) (env : Env) (e : Expr) :
    T.Commutes (Machine.evalNode ⟨host, n, f⟩ env e)
      (Machine.evalNode ⟨host, n, g⟩ env (T.tree env.layouts e)) := by
  -- Slots are translated themselves, all other nodes through their children.
  by_cases hv : ∃ b, e = .var b
  · obtain ⟨b, rfl⟩ := hv
    have hplace : T.Commutes
        (Machine.place ⟨host, n, f⟩ env (.var b) >>= Machine.read ⟨host, n, f⟩)
        (Machine.place ⟨host, n, g⟩ env (T.tree env.layouts (.var b)) >>=
          Machine.read ⟨host, n, g⟩) :=
      (commutes_place hT h env (.var b)).bind fun p => commutes_read h p
    obtain ⟨level, hb⟩ := hT.var env.layouts b
    rw [hb] at hplace ⊢
    exact hplace
  · have hv (b : Binding) : e ≠ .var b := fun he => hv ⟨b, he⟩
    rw [hT.node hv]
    exact commutes_node hT h env hv

theorem commutes_eval (hT : T.Lawful) (host : Host) (n : Nat) :
    T.Evaluates (eval host n) (eval host n) := by
  induction n with
  | zero => exact fun _ _ => .throw _
  | succ n ih => exact fun env e => commutes_evalNode hT ih env e

theorem commutes_evalWatched (hT : T.Lawful) {watch : Watch}
    (hbefore : ∀ env e, T.Commutes (watch.before env e) (watch.before env (T.tree env.layouts e)))
    (hafter : ∀ s env e v, T.Commutes (watch.after s env e v)
      (watch.after (T.store s) env (T.tree env.layouts e) v)) (host : Host) (n : Nat) :
    T.Evaluates (evalWatched watch host n) (evalWatched watch host n) := by
  induction n with
  | zero => exact fun _ _ => .throw _
  | succ n ih =>
    refine fun env e => .get_bind fun s => (hbefore env e).bind fun _ => ?_
    exact (commutes_evalNode hT ih env e).bind fun v => (hafter s env e v).bind fun _ => .pure v

end Translation

end ExprCore
