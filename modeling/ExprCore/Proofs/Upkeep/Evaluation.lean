import ExprCore.Proofs.Upkeep.Runs
import ExprCore.Proofs.Watching

/-!
Upkeep along evaluation. As soon as subtrees keep it up, so does the node; and calls keep it up whatever the
body of the function is, since what the body returns is caught.
-/

namespace ExprCore
set_option autoImplicit false

namespace Upkeep

variable {U : Upkeep} (hU : U.Lawful)
include hU

/-! ### Containers and operators -/

theorem keeps_indexable (v : Value) : U.Keeps (Run.ofExcept (Indexable.ofValue v)) :=
  keeps_agree hU (Indexable.like_ofValue (Value.Like.refl_same v))

theorem keeps_toInt (v : Value) : U.Keeps (Run.ofExcept v.toInt) :=
  keeps_agree hU (Value.Like.refl_same v).toInt

theorem keeps_mapKey (v : Value) : U.Keeps (Run.ofExcept (Indexable.mapKey v)) :=
  keeps_agree hU (Value.Like.refl_same v).mapKey

theorem keeps_position (key : Value) (n : Nat) : U.Keeps (Run.ofExcept (Indexable.position key n)) :=
  keeps_agree hU (Indexable.agree_position (Value.Like.refl_same key) n)

theorem keeps_castAll (t : Ty) (vs : List Value) : U.Keeps (Run.ofExcept (vs.mapM t.cast)) :=
  keeps_agree hU ((Value.Likes.refl_same vs).mapM_cast t)

theorem keeps_get (s : Store) (c : Indexable) (key : Value) : U.Keeps (Run.ofExcept (c.get s key)) :=
  keeps_agree hU (Indexable.agree_get s.contents_same c.like_same (Value.Like.refl_same key))

theorem keeps_storeInArray (elem : Ty) (r : Ref) (i : Nat) (v : Value) :
    U.Keeps (Indexable.storeInArray elem r i v) := by
  refine (keeps_cast hU elem v).bind fun w => keeps_get_bind fun s _ => ?_
  exact .ite ((keeps_writeSequence hU r _).bind fun _ => keeps_pure _) (keeps_fail hU rfl)

theorem keeps_set (c : Indexable) (key v : Value) : U.Keeps (c.set key v) := by
  cases c with
  | text t => exact keeps_fail hU rfl
  | buffer r =>
    apply (keeps_cast hU .char v).bind
    intro w
    cases w with
    | char c =>
      refine keeps_get_bind fun s _ => (keeps_position hU key _).bind fun i => ?_
      exact (keeps_writeBuffer hU r _).bind fun _ => keeps_pure _
    | _ => exact keeps_fail hU rfl
  | list r =>
    refine keeps_get_bind fun s _ => (keeps_position hU key _).bind fun i => ?_
    exact (keeps_writeSequence hU r _).bind fun _ => keeps_pure _
  | array elem r =>
    refine keeps_get_bind fun s _ => (keeps_position hU key _).bind fun i => ?_
    exact keeps_storeInArray hU elem r i v
  | map r =>
    apply (keeps_mapKey hU key).bind
    intro k
    exact (keeps_writeMap hU r fun entries h => h.insert k v).bind fun _ => keeps_pure _

theorem keeps_slice (c : Indexable) (lo hi : Int) : U.Keeps (c.slice lo hi) := by
  have hbetween {α : Type} (items : List α) : U.Keeps (Run.ofExcept (Indexable.between items lo hi)) :=
    keeps_agree hU (Indexable.agree_between (R := Eq) (List.forall₂_same.mpr fun _ _ => rfl) lo hi)
  refine keeps_get_bind fun s _ => ?_
  cases c with
  | text t => exact (hbetween _).bind fun _ => keeps_pure _
  | buffer r => exact (hbetween _).bind fun _ => keeps_pure _
  | list r => exact (hbetween _).bind fun items => keeps_newList hU items
  | array elem r =>
    refine (hbetween _).bind fun items => (keeps_castAll hU elem items).bind fun items => ?_
    exact keeps_newArrayOf hU elem items
  | map r => exact keeps_fail hU rfl

theorem keeps_arith (op : Arith) (fuel : Nat) (a b : Value) : U.Keeps (op.invoke fuel a b) := by
  unfold Arith.invoke
  split
  · refine keeps_get_bind fun s _ => (keeps_ofOption hU _).bind fun left => ?_
    exact (keeps_ofOption hU _).bind fun right => keeps_pure _
  · split
    · exact keeps_agree hU (op.agree_onNumbers (ρ := .same) _ _)
    · exact keeps_fail hU rfl

theorem keeps_walkDoubles (last step : Float) (n : Nat) (walked : List Value) (x : Float) :
    U.Keeps (Operator.walkDoubles last step n walked x) := by
  induction n generalizing walked x with
  | zero => exact keeps_halt hU rfl
  | succ n ih =>
    exact .ite (.ite (keeps_fail hU rfl) (ih _ _)) (keeps_pure _)

theorem keeps_rangeOver (fuel : Nat) (args : List Value) : U.Keeps (Operator.rangeOver fuel args) := by
  have hdoubles (first last : Float) (step : Option Float) :
      U.Keeps (Operator.doubleRange fuel first last step) :=
    (keeps_fail hU rfl).ite <| (keeps_fail hU rfl).ite <|
      (keeps_walkDoubles hU _ _ _ _ _).bind fun items => keeps_newList hU items
  have hintegers (elem : Ty) (first last : Int) (step : Option Int) :
      U.Keeps (Operator.integralRange elem first last step) :=
    (keeps_fail hU rfl).ite <| (keeps_agree hU (Operator.agree_rangeItems (ρ := .same) _ _)).bind
      fun items => keeps_newList hU items
  have helement : U.Keeps (Run.ofExcept (Operator.rangeElement (args.map Value.ty))) :=
    keeps_agree hU (.refl (R := Eq) (fun _ _ => rfl) fun _ => Operator.rangeElement_error)
  apply helement.bind
  intro elem
  dsimp only
  split
  · apply (hdoubles _ _ _).ite
    split
    · exact hintegers _ _ _ _
    · exact keeps_fail hU rfl
  · exact keeps_fail hU rfl

theorem keeps_operator (op : Operator) (fuel : Nat) (args : List Value) : U.Keeps (op.invoke fuel args) := by
  unfold Operator.invoke
  split
  · exact keeps_arith hU _ _ _ _
  · rename_i op a b
    unfold Comparison.invoke
    split
    · exact keeps_pure _
    · split
      · exact keeps_get_bind fun s _ => (keeps_ofOption hU _).bind fun _ => keeps_pure _
      · exact keeps_fail hU rfl
  · exact keeps_agree hU (Operator.agree_negateValue (Value.Like.refl_same _))
  · exact keeps_get_bind fun _ _ => keeps_pure _
  · exact keeps_rangeOver hU _ _
  · exact keeps_rangeOver hU _ _
  · exact keeps_throw (hU.halt_of_fault (hU.failure rfl))

theorem keeps_validateOperator (op : Operation) (args : List Value) :
    U.Keeps (Run.ofExcept (op.validate args)) :=
  keeps_agree hU (op.agree_validate (Value.Likes.refl_same args))

theorem keeps_memberCell (object : Ref) (name : String) : U.Keeps (Run.memberCell object name) := by
  refine keeps_get_bind fun s _ => ?_
  dsimp only
  split
  · exact keeps_pure _
  · exact keeps_fail hU rfl

theorem keeps_hostOp (fuel : Nat) (op : HostOp) : U.Keeps (op.run fuel) := by
  cases op with
  | newList items => exact keeps_newList hU items
  | newArray elem items => exact (keeps_castAll hU elem items).bind fun _ => keeps_newArrayOf hU elem _
  | newBuffer chars => exact keeps_newBuffer hU chars
  | newMap entries => exact keeps_newMap hU (Entries.Sorted.insertAll .nil entries)
  | newObject className members => exact keeps_newInstance hU className members
  | newOperator op => exact keeps_newFunction hU _ (hU.builtIn op)
  | writeList r items => exact (keeps_writeSequence hU r items).bind fun _ => keeps_pure _
  | writeElement elem r i v => exact keeps_storeInArray hU elem r i v
  | writeBuffer r chars => exact (keeps_writeBuffer hU r chars).bind fun _ => keeps_pure _
  | writeMap r entries =>
    have hsorted := Entries.Sorted.insertAll .nil entries
    exact (keeps_writeMap hU r fun _ _ => hsorted).bind fun _ => keeps_pure _
  | readMember object name =>
    exact (keeps_memberCell hU object name).bind fun _ => keeps_readCell _
  | writeMember object name v =>
    refine (keeps_memberCell hU object name).bind fun c => (keeps_cast hU c.2 v).bind fun w => ?_
    exact (keeps_writeCell hU c.1 w).bind fun _ => keeps_pure _
  | display v =>
    exact keeps_get_bind fun s _ => (keeps_ofOption hU _).bind fun _ => keeps_pure _
  | equal v w =>
    exact keeps_get_bind fun s _ => (keeps_ofOption hU _).bind fun _ => keeps_pure _

/-! ### Calls -/

theorem keeps_functionIn (v : Value) : U.Keeps (Machine.functionIn v) := by
  unfold Machine.functionIn
  split
  · exact keeps_pure _
  · exact keeps_fail hU rfl
  · exact keeps_fail hU rfl

theorem keeps_validate (f : Callable) (args : List Value) : U.Keeps (f.validate args) := by
  cases f with
  | native f => exact keeps_agree hU (f.agree_validate (Value.Likes.refl_same args))
  | operator op => exact keeps_validateOperator hU op args
  | closure c =>
    apply (keeps_agree hU (agree_checkCount c.name c.signature.arity (Value.Likes.refl_same args))).bind
    intro _
    have hdefaults : KnownDefaults .same c.signature.params := fun _ _ _ _ => Value.Like.refl_same _
    apply (keeps_agree hU (Closure.agree_bindParams c.name hdefaults 1 (Value.Likes.refl_same args))).bind
    intro bound
    split
    · exact keeps_pure _
    · exact (keeps_newList hU _).bind fun _ => keeps_pure _

/-- What is done with a function and the arguments that it has validated. -/
theorem keeps_validated {α : Type} {x : Callable → List Value → Run α}
    (h : ∀ f, U.callable f → ∀ args, U.Keeps (x f args)) (r : Ref) (args : List Value) :
    U.Keeps (do
      let f := (← get).callable r
      x f (← f.validate args)) :=
  keeps_get_bind fun _ hs => (keeps_validate hU _ args).bind fun args => h _ (hU.function r hs) args

theorem keeps_fill (base : Ref) (values : List Value) : U.Keeps (Machine.fill base values) := by
  induction values generalizing base with
  | nil => exact keeps_pure _
  | cons v values ih => exact (keeps_writeCell hU base v).bind fun _ => ih _

theorem keeps_runWith_bind {ε α β : Type} {fuel : Nat} {call : Ref → List Value → Run Value}
    (hcall : ∀ r args, U.Keeps (call r args)) {own : ε → Prop} {a : HostAction ε α}
    (ha : a.FailsAs (fun f => U.callable (.native f)) (fun e => U.halt (.error e)) own)
    {g : Except ε α → Run β} (hok : ∀ v, U.Keeps (g (.ok v)))
    (herror : ∀ e, own e → U.Keeps (g (.error e))) :
    U.Keeps (Machine.runWith fuel call a >>= g) := by
  induction ha with
  | done result => exact hok result
  | fail h => exact herror _ h
  | call _ ih =>
    simp only [Machine.runWith, bind_assoc]
    exact (hcall _ _).outcome_bind fun o ho => ih o ho
  | perform _ ih =>
    simp only [Machine.runWith, bind_assoc]
    exact (keeps_hostOp hU fuel _).outcome_bind fun o ho => ih o ho
  | newNative hf _ ih =>
    simp only [Machine.runWith, bind_assoc]
    exact (keeps_newFunction hU _ hf).bind fun v => ih v
  | look _ ih =>
    simp only [Machine.runWith, bind_assoc]
    exact keeps_get_bind fun s _ => ih _
  | newRecord _ ih =>
    simp only [Machine.runWith, bind_assoc]
    exact (keeps_newRecord hU _).bind fun r => ih r
  | readRecord _ ih =>
    simp only [Machine.runWith, bind_assoc]
    exact keeps_get_bind fun s _ => ih _
  | writeRecord _ ih =>
    simp only [Machine.runWith, bind_assoc]
    exact (keeps_writeRecord hU _ _ _).bind fun _ => ih

omit hU in
def Hosts (U : Upkeep) (host : Host) : Prop :=
  ∀ className, (host className).Members fun a => U.code (fun _ => True) a

omit hU in
/-- A machine that keeps up what is good over all bodies, and its host too. -/
structure Serves (U : Upkeep) (m : Machine) : Prop where
  lawful : U.Lawful
  bodies : ∀ env e, U.body e → U.loose.Keeps (m.eval env e)
  host : U.Hosts m.host

section Machines

omit hU
variable {m : Machine} (hm : U.Serves m)
include hm

theorem keeps_invokeHost {call : Ref → List Value → Run Value}
    (hcall : ∀ r args, U.calm.Keeps (call r args)) (name : String)
    {body : List Value → HostAction EvalError Value} {args : List Value}
    (hb : U.code (fun e => U.fault (.error e)) (body args)) :
    U.calm.Keeps (m.invokeHost call name body args) := by
  have hU := hm.lawful.calm
  apply (keeps_recordCall hU _).bind
  intro _
  exact keeps_runWith_bind hU hcall hb keeps_pure fun e he => keeps_throw he

theorem keeps_operateWith {call : Ref → List Value → Run Value}
    (hcall : ∀ r args, U.calm.Keeps (call r args)) {op : Operation}
    (hop : U.callable (.operator op)) (args : List Value) :
    U.calm.Keeps (m.operateWith call op args) := by
  cases op with
  | builtIn op => exact keeps_operator hm.lawful.calm op m.fuel args
  | host f => exact keeps_invokeHost hm hcall f.name (hm.lawful.host args hop)

theorem keeps_invokeWithin (n : Nat) {f : Callable} (hf : U.callable f) (args : List Value) :
    U.calm.Keeps (m.invokeWithin n f args) := by
  have hU := hm.lawful.calm
  induction n generalizing f args with
  | zero => exact keeps_halt hU rfl
  | succ n ih =>
    have hcall := keeps_validated hU (x := m.invokeWithin n) fun f hf args => ih hf args
    cases f with
    | native f => exact keeps_invokeHost hm hcall f.name (hU.native args hf)
    | operator op => exact keeps_operateWith hm hcall hf args
    | closure c =>
      apply (keeps_newCells hU _).bind
      intro base
      apply (keeps_fill hU _ _).bind
      intro _
      have hbody := hm.bodies (⟨c.signature.layout, base⟩ :: c.env) c.body (hm.lawful.closure hf)
      exact (catchReturn hm.lawful hbody).bind fun v => keeps_castNoting hU _ _ v

theorem keeps_call (r : Ref) (args : List Value) : U.calm.Keeps (m.call r args) :=
  keeps_validated hm.lawful.calm (fun _ hf args => keeps_invokeWithin hm m.fuel hf args) r args

theorem keeps_operate {op : Operation} (hop : U.callable (.operator op)) (args : List Value) :
    U.Keeps (m.operate op args) :=
  (keeps_operateWith hm (keeps_call hm) hop args).of_calm hm.lawful

theorem keeps_callForResult (r : Ref) (args : List Value) : U.Keeps (m.callForResult r args) := by
  have hU := hm.lawful
  refine keeps_get_bind fun s hs => (keeps_validate hU _ args).bind fun args => ?_
  refine ((keeps_invokeWithin hm _ (hU.function r hs) args).of_calm hU).bind fun v => ?_
  exact (keeps_pure _).ite (keeps_pure _)

/-- Whatever fault the host reports, the error that it becomes is no early return. -/
theorem keeps_dispatch {α : Type} (operation : String) {a : HostAction HostFault α}
    (ha : U.code (fun _ => True) a) : U.Keeps (m.dispatch operation a) := by
  have hU := hm.lawful.calm
  have hcalm : U.calm.Keeps (m.dispatch operation a) :=
    keeps_runWith_bind hU (keeps_call hm) ha keeps_pure fun _ _ => keeps_fail hU rfl
  exact hcalm.of_calm hm.lawful

theorem keeps_callMethod (receiver : Value) (method : String) (args : List Value) :
    U.Keeps (m.callMethod receiver method args) := by
  have hU := hm.lawful
  unfold Machine.callMethod
  split
  · exact keeps_dispatch hm _ ((hm.host _).invokeMethod _ _ _)
  · refine keeps_get_bind fun s _ => ?_
    split
    · apply (keeps_readCell _).bind
      intro v
      split
      · exact keeps_callForResult hm _ _
      · exact keeps_fail hU rfl
    · exact keeps_fail hU rfl
  · exact keeps_fail hU rfl
  · exact keeps_fail hU rfl

theorem keeps_read (p : Place) : U.Keeps (m.read p) := by
  have hU := hm.lawful
  cases p with
  | cell r => exact keeps_readCell r
  | element c key => exact keeps_get_bind fun s _ => keeps_get hU s c key
  | hostField className r field => exact keeps_dispatch hm _ ((hm.host _).getField r field)
  | staticField className field => exact keeps_dispatch hm _ ((hm.host _).getStatic field)

theorem keeps_store (p : Place) (v : Value) : U.Keeps (m.store p v) := by
  have hU := hm.lawful
  cases p with
  | cell r =>
    apply (keeps_castNoting hU _ _ v).bind
    intro w
    exact (keeps_writeCell hU r w).bind fun _ => keeps_pure _
  | element c key => exact keeps_set hU c key v
  | hostField className r field =>
    exact (keeps_dispatch hm _ ((hm.host _).setField r field v)).bind fun _ => keeps_pure v
  | staticField className field =>
    exact (keeps_dispatch hm _ ((hm.host _).setStatic field v)).bind fun _ => keeps_pure v

theorem keeps_write (p : Place) (v : Value) : U.Keeps (m.write p v) := by
  rcases m.write_cases p v with h | ⟨name, h⟩
  · rw [h]
    exact keeps_store hm p v
  · rw [h]
    exact keeps_fail hm.lawful rfl

theorem keeps_evalTry {env : Env} {body binding handler : Expr} (hb : U.Keeps (m.eval env body))
    (hbinding : U.Keeps (m.place env binding)) (hhandler : U.Keeps (m.eval env handler)) (t : Ty) :
    U.Keeps (m.evalTry env body binding handler t) := by
  have hU := hm.lawful
  apply hb.outcome_bind
  intro o ho
  cases o with
  | ok v => exact (keeps_pure v).bind fun v => keeps_cast hU t v
  | error e =>
    dsimp only
    split
    · exact (keeps_throw (ho e rfl)).bind fun v => keeps_cast hU t v
    · apply Keeps.bind
      · apply hbinding.bind
        intro p
        exact (keeps_store hm p _).bind fun _ => hhandler
      · intro v
        exact keeps_cast hU t v

end Machines

/-! ### Nodes -/

section Lists

variable {m : Machine} {env : Env}

omit hU in
theorem keeps_evalAll {es : List Expr} (h : ∀ e ∈ es, U.Keeps (m.eval env e)) : U.Keeps (m.evalAll env es) := by
  induction es with
  | nil => exact keeps_pure _
  | cons e es ih =>
    obtain ⟨he, hes⟩ := List.forall_mem_cons.mp h
    exact he.bind fun v => (ih hes).bind fun vs => keeps_pure _

theorem keeps_evalElements (elem : Ty) {es : List Expr} (h : ∀ e ∈ es, U.Keeps (m.eval env e)) :
    U.Keeps (m.evalElements env elem es) := by
  induction es with
  | nil => exact keeps_pure _
  | cons e es ih =>
    obtain ⟨he, hes⟩ := List.forall_mem_cons.mp h
    exact he.bind fun v => (keeps_cast hU elem v).bind fun w => (ih hes).bind fun vs => keeps_pure _

theorem keeps_evalEntries (value : Ty) {entries : List (Expr × Expr)}
    (h : ∀ e ∈ entries, U.Keeps (m.eval env e.1) ∧ U.Keeps (m.eval env e.2)) :
    U.Keeps (m.evalEntries env value entries) := by
  induction entries with
  | nil => exact keeps_pure _
  | cons entry entries ih =>
    obtain ⟨⟨hkey, hvalue⟩, hentries⟩ := List.forall_mem_cons.mp h
    refine hkey.bind fun key => (keeps_mapKey hU key).bind fun k => ?_
    refine hvalue.bind fun v => (keeps_cast hU value v).bind fun w => ?_
    exact (ih hentries).bind fun _ => keeps_pure _

omit hU in
theorem keeps_evalSequence (last : Value) {es : List Expr} (h : ∀ e ∈ es, U.Keeps (m.eval env e)) :
    U.Keeps (m.evalSequence env last es) := by
  induction es generalizing last with
  | nil => exact keeps_pure _
  | cons e es ih =>
    obtain ⟨he, hes⟩ := List.forall_mem_cons.mp h
    exact he.bind fun v => ih v hes

omit hU in
theorem keeps_truthOf {e : Expr} (h : U.Keeps (m.eval env e)) : U.Keeps (m.truthOf env e) :=
  h.bind fun _ => keeps_get_bind fun _ _ => keeps_pure _

omit hU in
theorem keeps_evalLogical (op : Connective) {lhs rhs : Expr} (hl : U.Keeps (m.eval env lhs))
    (hr : U.Keeps (m.eval env rhs)) : U.Keeps (m.evalLogical env op lhs rhs) := by
  apply (keeps_truthOf hl).bind
  intro left
  split
  · exact keeps_pure _
  · exact keeps_pure _
  · exact (keeps_truthOf hr).map _

theorem keeps_evalLoop {cond body : Expr} (hcond : U.Keeps (m.eval env cond))
    (hbody : U.Keeps (m.eval env body)) (n : Nat) : U.Keeps (m.evalLoop env cond body n) := by
  induction n with
  | zero => exact keeps_halt hU rfl
  | succ n ih =>
    apply (keeps_truthOf hcond).bind
    intro again
    exact (hbody.bind fun _ => ih).ite (keeps_pure _)

end Lists

section Parts

variable {m : Machine} {env : Env} {a b c : Expr} {es : List Expr}

theorem keeps_evalConditional (t : Ty) (hc : U.Keeps (m.eval env c)) (ha : U.Keeps (m.eval env a))
    (hb : U.Keeps (m.eval env b)) : U.Keeps (m.evalConditional env c a b t) := by
  apply (keeps_truthOf hc).bind
  intro p
  have hbranch : U.Keeps (m.eval env (if p then a else b)) := by
    split
    · exact ha
    · exact hb
  exact hbranch.bind fun v => keeps_castNoting hU _ _ v

theorem keeps_evalSlice (ha : U.Keeps (m.eval env a)) (hb : U.Keeps (m.eval env b))
    (hc : U.Keeps (m.eval env c)) : U.Keeps (m.evalSlice env a b c) := by
  apply ha.bind
  intro v
  apply (keeps_indexable hU v).bind
  intro container
  apply hb.bind
  intro lo
  apply (keeps_toInt hU lo).bind
  intro lo
  apply hc.bind
  intro hi
  exact (keeps_toInt hU hi).bind fun hi => keeps_slice hU container lo hi

theorem keeps_evalArrayLiteral (elem : Ty) (h : ∀ x ∈ es, U.Keeps (m.eval env x)) :
    U.Keeps (m.evalArrayLiteral env elem es) := by
  apply (keeps_evalAll h).bind
  intro values
  exact (keeps_castAll hU elem values).bind fun items => keeps_newArrayOf hU elem items

theorem keeps_evalArrayAlloc (elem : Ty) (ha : U.Keeps (m.eval env a)) :
    U.Keeps (m.evalArrayAlloc env elem a) := by
  apply ha.bind
  intro v
  apply (keeps_toInt hU v).bind
  intro n
  exact (keeps_fail hU rfl).ite (keeps_newArrayOf hU _ _)

theorem keeps_evalExtendList (elem : Ty) (ha : U.Keeps (m.eval env a))
    (h : ∀ x ∈ es, U.Keeps (m.eval env x)) : U.Keeps (m.evalExtendList env a elem es) := by
  apply ha.bind
  intro v
  cases v with
  | list r =>
    refine (keeps_evalElements hU elem h).bind fun values => keeps_get_bind fun s _ => ?_
    exact (keeps_writeSequence hU _ _).bind fun _ => keeps_pure _
  | _ => exact keeps_fail hU rfl

theorem keeps_evalExtendMap (value : Ty) (ha : U.Keeps (m.eval env a)) {entries : List (Expr × Expr)}
    (h : ∀ x ∈ entries, U.Keeps (m.eval env x.1) ∧ U.Keeps (m.eval env x.2)) :
    U.Keeps (m.evalExtendMap env a value entries) := by
  apply ha.bind
  intro v
  cases v with
  | map r =>
    apply (keeps_evalEntries hU value h).bind
    intro more
    exact (keeps_writeMap hU r fun entries h => h.insertAll more).bind fun _ => keeps_pure _
  | _ => exact keeps_fail hU rfl

theorem keeps_evalRaise (ha : U.Keeps (m.eval env a)) : U.Keeps (m.evalRaise env a) := by
  refine ha.bind fun v => keeps_get_bind fun s _ => ?_
  exact (keeps_ofOption hU _).bind fun _ => keeps_fail hU rfl

section Calls

omit hU
variable (hm : U.Serves m)
include hm

theorem keeps_evalOperator {op : Operation} (hop : U.callable (.operator op)) (t : Ty)
    (h : ∀ x ∈ es, U.Keeps (m.eval env x)) : U.Keeps (m.evalOperator env op es t) := by
  have hU := hm.lawful
  apply (keeps_evalAll h).bind
  intro args
  apply (keeps_validateOperator hU op args).bind
  intro args
  exact (keeps_operate hm hop args).bind fun v => keeps_castNoting hU _ _ v

theorem keeps_evalAssign (mode : AssignMode) (ha : U.Keeps (m.place env a))
    (hb : U.Keeps (m.eval env b)) : U.Keeps (m.evalAssign env mode a b) := by
  apply ha.bind
  intro p
  apply hb.bind
  intro v
  cases mode with
  | assign => exact keeps_write hm p v
  | declare => exact keeps_store hm p v

theorem keeps_evalCompound {op : Operation} (hop : U.callable (.operator op)) (result : Option Ty)
    (ha : U.Keeps (m.place env a)) (hb : U.Keeps (m.eval env b)) :
    U.Keeps (m.evalCompound env op a b result) := by
  have hU := hm.lawful
  apply ha.bind
  intro p
  apply (keeps_read hm p).bind
  intro old
  apply hb.bind
  intro v
  apply (keeps_validateOperator hU op _).bind
  intro args
  apply (keeps_operate hm hop args).bind
  intro w
  exact (keeps_cast hU _ w).bind fun w => keeps_write hm p w

theorem keeps_evalStep (k : Step) (ha : U.Keeps (m.place env a)) : U.Keeps (m.evalStep env k a) := by
  apply ha.bind
  intro p
  apply (keeps_read hm p).bind
  intro old
  apply (keeps_arith hm.lawful _ _ _ _).bind
  intro new
  exact (keeps_write hm p new).bind fun _ => keeps_pure _

theorem keeps_evalMethodCall (method : String) (ha : U.Keeps (m.eval env a))
    (h : ∀ x ∈ es, U.Keeps (m.eval env x)) : U.Keeps (m.evalMethodCall env a method es) := by
  apply ha.bind
  intro v
  exact (keeps_evalAll h).bind fun args => keeps_callMethod hm v method args

theorem keeps_evalApply (ha : U.Keeps (m.eval env a)) (h : ∀ x ∈ es, U.Keeps (m.eval env x)) :
    U.Keeps (m.evalApply env a es) := by
  apply ha.bind
  intro v
  apply (keeps_functionIn hm.lawful v).bind
  intro f
  exact (keeps_evalAll h).bind fun args => keeps_callForResult hm f args

/-- What the body of a block returns ends with the block. -/
theorem keeps_evalBlock (layout : Layout) {body : List Expr} (h : ∀ x ∈ body, U.body x) (ret : Ty) :
    U.Keeps (m.evalBlock env layout body ret) := by
  have hU := hm.lawful
  apply (keeps_enter hU env layout).bind
  intro inner
  have hsequence : U.loose.Keeps (m.evalSequence inner .void body) :=
    keeps_evalSequence _ fun a ha => hm.bodies inner a (h a ha)
  exact ((catchReturn hU hsequence).of_calm hU).bind fun v => keeps_castNoting hU _ _ v

end Calls

end Parts

/-- A machine that keeps up what is good over all bodies, and strictly over the trees of which the upkeep
tells. -/
structure Follows (U : Upkeep) (m : Machine) : Prop extends Serves U m where
  trees : ∀ env e, U.tree e → U.Keeps (m.eval env e)

section Nodes

omit hU
variable {m : Machine} (hm : U.Follows m) {env : Env} {e : Expr} (ht : U.tree e)
include hm ht

theorem keeps_child {a : Expr} (ha : (Entry.here, a) ∈ e.children) : U.Keeps (m.eval env a) :=
  hm.trees env a (hm.lawful.child ht ha)

theorem keeps_place : U.Keeps (m.place env e) := by
  have hU := hm.lawful
  cases e with
  | var b =>
    apply Keeps.bind
    · unfold Machine.cellOf
      split
      · exact keeps_pure _
      · exact keeps_throw (hU.halt_of_fault (hU.failure rfl))
    · intro r
      exact keeps_pure _
  | index base key =>
    apply (keeps_child hm ht (by simp [Expr.children])).bind
    intro v
    apply (keeps_child hm ht (by simp [Expr.children])).bind
    intro k
    exact (keeps_indexable hU v).bind fun _ => keeps_pure _
  | member kind object name =>
    apply (keeps_child hm ht (by simp [Expr.children])).bind
    intro v
    unfold Machine.memberPlace
    split
    case h_6 =>
      refine keeps_get_bind fun s _ => ?_
      split
      · exact keeps_pure _
      · exact keeps_fail hU rfl
    all_goals first | exact keeps_pure _ | exact keeps_fail hU rfl
  | staticField className field => exact keeps_pure _
  | _ => exact keeps_fail hU rfl

theorem keeps_target {a : Expr} (ha : a ∈ e.targets) : U.Keeps (m.place env a) :=
  keeps_place hm (hm.lawful.child ht (Expr.target_mem_children ha))

theorem keeps_evalNode : U.Keeps (m.evalNode env e) := by
  have hU := hm.lawful
  have hb := hU.body_of_tree ht
  have hop {op : Operation} (h : e.operation? = some op) := hU.operation hb h
  have here {a : Expr} (ha : (Entry.here, a) ∈ e.children) : U.Keeps (m.eval env a) := keeps_child hm ht ha
  cases e with
  | literal v t => exact keeps_pure v
  | name n => exact keeps_fail hU rfl
  | scopeRef hops => exact keeps_halt hU rfl
  | var | index | member | staticField =>
    exact (keeps_place hm ht).bind fun p => keeps_read hm.toServes p
  | operator form op operands =>
    exact keeps_evalOperator hm.toServes (hop rfl) _ fun a ha => here (List.mem_map_of_mem ha)
  | logical op lhs rhs =>
    exact keeps_evalLogical op (here (by simp [Expr.children])) (here (by simp [Expr.children]))
  | conditional cond a b =>
    exact keeps_evalConditional hU _ (here (by simp [Expr.children])) (here (by simp [Expr.children]))
      (here (by simp [Expr.children]))
  | sequence items => exact keeps_evalSequence _ fun a ha => here (List.mem_map_of_mem ha)
  | before first second =>
    apply (here (by simp [Expr.children])).bind
    intro v
    exact (here (by simp [Expr.children])).bind fun _ => keeps_pure v
  | cast t operand => exact (here (by simp [Expr.children])).bind fun v => keeps_cast hU t v
  | instanceOf operand t => exact (here (by simp [Expr.children])).bind fun _ => keeps_pure _
  | assign mode target value =>
    exact keeps_evalAssign hm.toServes mode (keeps_target hm ht List.mem_cons_self)
      (here (by simp [Expr.children]))
  | compound op target value result =>
    exact keeps_evalCompound hm.toServes (hop rfl) result (keeps_target hm ht List.mem_cons_self)
      (here (by simp [Expr.children]))
  | step k target => exact keeps_evalStep hm.toServes k (keeps_target hm ht List.mem_cons_self)
  | slice base lo hi =>
    exact keeps_evalSlice hU (here (by simp [Expr.children])) (here (by simp [Expr.children]))
      (here (by simp [Expr.children]))
  | methodCall receiver method args =>
    exact keeps_evalMethodCall hm.toServes method (here List.mem_cons_self)
      fun a ha => here (List.mem_cons_of_mem _ (List.mem_map_of_mem ha))
  | staticCall className method args =>
    apply (keeps_evalAll fun a ha => here (List.mem_map_of_mem ha)).bind
    exact fun args => keeps_dispatch hm.toServes _ ((hm.host className).invokeStatic method args)
  | new className args =>
    apply (keeps_evalAll fun a ha => here (List.mem_map_of_mem ha)).bind
    exact fun args => keeps_dispatch hm.toServes _ ((hm.host className).construct args)
  | apply callee args =>
    exact keeps_evalApply hm.toServes (here List.mem_cons_self)
      fun a ha => here (List.mem_cons_of_mem _ (List.mem_map_of_mem ha))
  | lambda signature body => exact keeps_newFunction hU _ (hU.lambda env hb)
  | block layout body ret =>
    exact keeps_evalBlock hm.toServes layout (fun a ha => hU.inner hb (List.mem_map_of_mem ha)) ret
  | earlyReturn value =>
    apply (here List.mem_cons_self).bind
    exact fun v => keeps_throw (hU.earlyReturn v ht)
  | arrayLiteral elem items =>
    exact keeps_evalArrayLiteral hU elem fun a ha => here (List.mem_map_of_mem ha)
  | arrayAlloc elem length => exact keeps_evalArrayAlloc hU elem (here List.mem_cons_self)
  | listLiteral elem items =>
    apply (keeps_evalElements hU elem fun a ha => here (List.mem_map_of_mem ha)).bind
    exact fun values => keeps_newList hU values
  | extendList list elem items =>
    exact keeps_evalExtendList hU elem (here List.mem_cons_self)
      fun a ha => here (List.mem_cons_of_mem _ (List.mem_map_of_mem ha))
  | mapLiteral value entries =>
    apply (keeps_evalEntries hU value fun a ha =>
      ⟨here (Expr.key_mem ha), here (Expr.value_mem ha)⟩).bind
    exact fun more => keeps_newMap hU (Entries.Sorted.insertAll .nil more)
  | extendMap map value entries =>
    exact keeps_evalExtendMap hU value (here List.mem_cons_self) fun a ha =>
      ⟨here (List.mem_cons_of_mem _ (Expr.key_mem ha)), here (List.mem_cons_of_mem _ (Expr.value_mem ha))⟩
  | loop cond body =>
    exact keeps_evalLoop hU (here (by simp [Expr.children])) (here (by simp [Expr.children])) m.fuel
  | tryCatch body binding handler =>
    exact keeps_evalTry hm.toServes (here (by simp [Expr.children])) (keeps_target hm ht List.mem_cons_self)
      (here (by simp [Expr.children])) _
  | raise message => exact keeps_evalRaise hU (here List.mem_cons_self)

end Nodes

theorem keeps_eval {host : Host} (hhost : U.Hosts host) (n : Nat) (env : Env) {e : Expr}
    (h : U.tree e) : U.Keeps (eval host n env e) := by
  induction n generalizing U env e with
  | zero => exact keeps_halt hU rfl
  | succ n ih =>
    have hm : U.Follows (Machine.ofFuel host n) :=
      { lawful := hU
        bodies := fun env e he => ih hU.loose hhost env he
        host := hhost
        trees := fun env e he => ih hU hhost env he }
    exact keeps_evalNode hm h

theorem serves {host : Host} (hhost : U.Hosts host) (n : Nat) : U.Serves (Machine.ofFuel host n) where
  lawful := hU
  bodies _ _ he := keeps_eval hU.loose hhost n _ he
  host := hhost

end Upkeep

end ExprCore
