import ExprCore.Host.Operations
import ExprCore.Proofs.Growth.Stores
import ExprCore.Proofs.Likeness.Constants

/-!
Upkeep. What is kept up along runs is a property of stores, together with what it says of the functions in
them and of the ways in which runs end without a value. Whatever only lets the store grow keeps it up, and so
does what is made of computations that do. An early return is one way to end without a value. Loose upkeep
lets it go, and where it is caught upkeep is strict again.
-/

namespace ExprCore
set_option autoImplicit false

def Halt.Failure : Halt → Prop
  | .error e => e.returned? = none
  | .placeholder _ | .exhausted => True

theorem Halt.failure_of_error? {h : Halt} (hh : h.error? = none) : h.Failure := by
  cases h with
  | error e => cases hh
  | placeholder | exhausted => trivial

theorem Run.failure_of_catchReturn {x : Run Value} {h : Halt} {s s' : Store}
    (hx : catchReturn x s = .error h s') : h.Failure := by
  rcases error_of_bind hx with ho | ⟨o, s₁, -, hrest⟩
  · unfold outcome at ho
    split at ho
    · cases ho
    · cases ho
    · rename_i hne _
      cases ho
      refine Halt.failure_of_error? ?_
      cases h with
      | error e => exact absurd rfl (hne e)
      | placeholder | exhausted => rfl
  · cases o with
    | ok v => cases hrest
    | error e =>
      dsimp only at hrest
      cases hr : e.returned? with
      | some v =>
        rw [hr] at hrest
        cases hrest
      | none =>
        rw [hr] at hrest
        cases hrest
        exact hr

/-- Host code that makes native functions as `made` says and fails as `own` says, provided that what it
does to values and the calls that it makes fail as `called` says. -/
inductive HostProgram.FailsAs {ν ε α : Type} (made : ν → Prop) (called : EvalError → Prop)
    (own : ε → Prop) : HostProgram ν ε α → Prop where
  | done (a : α) : FailsAs made called own (.done a)
  | fail {e : ε} (h : own e) : FailsAs made called own (.fail e)
  | call {f : Ref} {args : List Value} {next : Except EvalError Value → HostProgram ν ε α}
    (h : ∀ o, (∀ e, o = .error e → called e) → FailsAs made called own (next o)) :
    FailsAs made called own (.call f args next)
  | perform {op : HostOp} {next : Except EvalError Value → HostProgram ν ε α}
    (h : ∀ o, (∀ e, o = .error e → called e) → FailsAs made called own (next o)) :
    FailsAs made called own (.perform op next)
  | newNative {f : ν} {next : Value → HostProgram ν ε α} (hf : made f)
    (h : ∀ v, FailsAs made called own (next v)) : FailsAs made called own (.newNative f next)
  | look {v : Value} {next : Option Content → HostProgram ν ε α}
    (h : ∀ c, FailsAs made called own (next c)) : FailsAs made called own (.look v next)
  | newRecord {fields : List Value} {next : Ref → HostProgram ν ε α}
    (h : ∀ r, FailsAs made called own (next r)) : FailsAs made called own (.newRecord fields next)
  | readRecord {record : Ref} {i : Nat} {next : Value → HostProgram ν ε α}
    (h : ∀ v, FailsAs made called own (next v)) :
    FailsAs made called own (.readRecord record i next)
  | writeRecord {record : Ref} {i : Nat} {v : Value} {next : Unit → HostProgram ν ε α}
    (h : FailsAs made called own (next ())) :
    FailsAs made called own (.writeRecord record i v next)

theorem HostProgram.failsAs_of_all {ν ε α : Type} {made : ν → Prop} {called : EvalError → Prop}
    {own : ε → Prop} (hmade : ∀ f, made f) (hown : ∀ e, own e) (a : HostProgram ν ε α) :
    a.FailsAs made called own := by
  induction a with
  | done r => exact .done r
  | fail e => exact .fail (hown e)
  | call f args next ih => exact .call fun o _ => ih o
  | perform op next ih => exact .perform fun o _ => ih o
  | newNative f next ih => exact .newNative (hmade f) ih
  | look v next ih => exact .look ih
  | newRecord fields next ih => exact .newRecord ih
  | readRecord record i next ih => exact .readRecord ih
  | writeRecord record i v next ih => exact .writeRecord (ih ())

/-- All that members of a host class do is of a kind. -/
structure HostClass.Members (p : ∀ {α : Type}, HostAction HostFault α → Prop) (c : HostClass) :
    Prop where
  construct : ∀ args, p (c.construct args)
  getStatic : ∀ field, p (c.getStatic field)
  setStatic : ∀ field v, p (c.setStatic field v)
  invokeStatic : ∀ method args, p (c.invokeStatic method args)
  getField : ∀ r field, p (c.getField r field)
  setField : ∀ r field v, p (c.setField r field v)
  invokeMethod : ∀ r method args, p (c.invokeMethod r method args)

/-- What runs keep up. -/
structure Upkeep where
  good : Store → Prop
  callable : Callable → Prop
  /-- Ways in which a call may end without a value. -/
  fault : Halt → Prop
  /-- Ways in which a run may end without a value. -/
  halt : Halt → Prop
  tree : Expr → Prop
  /-- Trees that may be evaluated where what they return is caught. -/
  body : Expr → Prop

namespace Upkeep

variable {U : Upkeep} {α β : Type} {x : Run α} {f : α → Run β}

/-- What host code makes of functions and of failures. -/
abbrev code (U : Upkeep) {ε α : Type} (own : ε → Prop) (a : HostAction ε α) : Prop :=
  a.FailsAs (fun f => U.callable (.native f)) (fun e => U.fault (.error e)) own

/-- Good stores stay good as they grow and as functions are made, and nothing but an early return needs leave
to end a run. -/
structure Lawful (U : Upkeep) : Prop where
  grows {s s' : Store} : U.good s → s.Grows s' → s'.functions = s.functions → U.good s'
  function {s : Store} (r : Ref) : U.good s → U.callable (s.callable r)
  newFunction {s : Store} {f : Callable} : U.good s → U.callable f →
    U.good { s with functions := s.functions.push f }
  failure {h : Halt} : h.Failure → U.fault h
  halt_of_fault {h : Halt} : U.fault h → U.halt h
  native {f : Native} (args : List Value) : U.callable (.native f) →
    U.code (fun e => U.fault (.error e)) (f.body args)
  builtIn (op : Operator) : U.callable (.operator (.builtIn op))
  host {f : HostOperator} (args : List Value) : U.callable (.operator (.host f)) →
    U.code (fun e => U.fault (.error e)) (f.body args)
  closure {c : Closure} : U.callable (.closure c) → U.body c.body
  /-- Children in the frames of their parent. What a body in a new frame returns is caught. -/
  child {e a : Expr} : U.tree e → (Entry.here, a) ∈ e.children → U.tree a
  body_of_tree {e : Expr} : U.tree e → U.body e
  inner {e : Expr} {c : Entry × Expr} : U.body e → c ∈ e.children → U.body c.2
  operation {e : Expr} {op : Operation} : U.body e → e.operation? = some op →
    U.callable (.operator op)
  lambda {signature : Signature} {e : Expr} (env : Env) : U.body (.lambda signature e) →
    U.callable (.closure
      ⟨signature, (e.resolve 1 ((Scope.ofEnv env).function signature.layout)).value, env⟩)
  earlyReturn {e : Expr} (v : Value) : U.tree (.earlyReturn e) → U.halt (.error (.of (.earlyReturn v)))

/-- The same upkeep of stores, for all bodies and however they end. -/
def loose (U : Upkeep) : Upkeep := { U with halt := fun _ => True, tree := U.body }

/-- The same upkeep of stores, for calls. -/
def calm (U : Upkeep) : Upkeep := { U with halt := U.fault, tree := fun _ => False }

theorem Lawful.loose (h : U.Lawful) : U.loose.Lawful :=
  { h with
    halt_of_fault := fun _ => trivial
    child := fun he ha => h.inner he ha
    body_of_tree := id
    earlyReturn := fun _ _ => trivial }

theorem Lawful.calm (h : U.Lawful) : U.calm.Lawful :=
  { h with
    halt_of_fault := id
    child := False.elim
    body_of_tree := False.elim
    earlyReturn := fun _ => False.elim }

/-- A computation that keeps up what is good. -/
structure Keeps (U : Upkeep) (x : Run α) : Prop where
  ok : ∀ {s a s'}, U.good s → x s = .ok a s' → U.good s'
  error : ∀ {s h s'}, U.good s → x s = .error h s' → U.good s' ∧ U.halt h

theorem Keeps.bind (hx : U.Keeps x) (hf : ∀ a, U.Keeps (f a)) : U.Keeps (x >>= f) := by
  constructor
  · intro s b s' hs h
    obtain ⟨a, s₁, ha, hb⟩ := Run.ok_of_bind h
    exact (hf a).ok (hx.ok hs ha) hb
  · intro s e s' hs h
    rcases Run.error_of_bind h with ha | ⟨a, s₁, ha, hb⟩
    · exact hx.error hs ha
    · exact (hf a).error (hx.ok hs ha) hb

theorem Keeps.of_calm (hU : U.Lawful) (h : U.calm.Keeps x) : U.Keeps x where
  ok hs hx := h.ok hs hx
  error hs hx := (h.error hs hx).imp_right hU.halt_of_fault

theorem keeps_pure (a : α) : U.Keeps (pure a) where
  ok hs h := by cases h; exact hs
  error _ h := by cases h

theorem keeps_throw {h : Halt} (hh : U.halt h) : U.Keeps (throw h : Run α) where
  ok _ h := by cases h
  error hs h := by cases h; exact ⟨hs, hh⟩

theorem Keeps.map (hx : U.Keeps x) (g : α → β) : U.Keeps (g <$> x) := by
  rw [map_eq_pure_bind]
  exact hx.bind fun a => keeps_pure (g a)

theorem Keeps.ite {p : Prop} [Decidable p] {y : Run α} (hx : U.Keeps x) (hy : U.Keeps y) :
    U.Keeps (if p then x else y) := by
  split
  · exact hx
  · exact hy

theorem keeps_get_bind {g : Store → Run β} (h : ∀ s, U.good s → U.Keeps (g s)) : U.Keeps (get >>= g) where
  ok {s _ _} hs hx := (h s hs).ok hs hx
  error {s _ _} hs hx := (h s hs).error hs hx

theorem Keeps.outcome_bind {x : Run Value} {g : Except EvalError Value → Run β} (hx : U.Keeps x)
    (hg : ∀ o, (∀ e, o = .error e → U.halt (.error e)) → U.Keeps (g o)) : U.Keeps (Run.outcome x >>= g) := by
  have hcase (s : Store) (hs : U.good s) :
      (∃ o s₁, (Run.outcome x >>= g) s = g o s₁ ∧ U.good s₁ ∧ ∀ e, o = .error e → U.halt (.error e)) ∨
        ∃ h s₁, (Run.outcome x >>= g) s = .error h s₁ ∧ U.good s₁ ∧ U.halt h := by
    cases he : x s with
    | ok v s₁ => exact .inl ⟨.ok v, s₁, Run.bind_ok g (Run.outcome_ok he), hx.ok hs he, nofun⟩
    | error h s₁ =>
      obtain ⟨hs₁, hh⟩ := hx.error hs he
      cases h with
      | error e =>
        refine .inl ⟨.error e, s₁, Run.bind_ok g (Run.outcome_error he), hs₁, ?_⟩
        rintro _ ⟨⟩
        exact hh
      | placeholder | exhausted =>
        exact .inr ⟨_, s₁, Run.bind_error g (Run.outcome_halt rfl he), hs₁, hh⟩
  constructor
  · intro s b s' hs h
    rcases hcase s hs with ⟨o, s₁, heq, hs₁, ho⟩ | ⟨h', s₁, heq, -, -⟩
    · exact (hg o ho).ok hs₁ (heq.symm.trans h)
    · cases heq.symm.trans h
  · intro s e s' hs h
    rcases hcase s hs with ⟨o, s₁, heq, hs₁, ho⟩ | ⟨h', s₁, heq, hs₁, hh⟩
    · exact (hg o ho).error hs₁ (heq.symm.trans h)
    · cases heq.symm.trans h
      exact ⟨hs₁, hh⟩

section Changes

variable (hU : U.Lawful)
include hU

theorem keeps_fail {kind : ErrorKind} (h : (EvalError.of kind).returned? = none) :
    U.Keeps (Run.fail kind : Run α) :=
  keeps_throw (hU.halt_of_fault (hU.failure h))

theorem keeps_halt {h : Halt} (hh : h.error? = none) : U.Keeps (throw h : Run α) :=
  keeps_throw (hU.halt_of_fault (hU.failure (Halt.failure_of_error? hh)))

/-- Computations that agree with themselves fail with no early return. -/
theorem keeps_agree {R : α → α → Prop} {r : Except EvalError α} (h : Agree R r r) :
    U.Keeps (Run.ofExcept r) := by
  cases h with
  | ok => exact keeps_pure _
  | error he => exact keeps_throw (hU.halt_of_fault (hU.failure he))

theorem keeps_cast (t : Ty) (v : Value) : U.Keeps (Run.ofExcept (t.cast v)) :=
  keeps_agree hU ((Value.Like.refl_same v).cast t)

theorem keeps_castNoting (t : Ty) (note : String) (v : Value) :
    U.Keeps (Run.ofExcept (t.castNoting note v)) :=
  keeps_agree hU ((Value.Like.refl_same v).castNoting t note)

theorem keeps_ofOption (r : Option α) : U.Keeps (Run.ofOption r) := by
  cases r with
  | some a => exact keeps_pure a
  | none => exact keeps_halt hU rfl

/-- Where early returns are caught, a run ends as calls may. -/
theorem catchReturn {x : Run Value} (hx : U.loose.Keeps x) : U.calm.Keeps (Run.catchReturn x) := by
  have hloose : U.loose.Keeps (Run.catchReturn x) := by
    refine hx.outcome_bind fun o _ => ?_
    cases o with
    | ok v => exact keeps_pure v
    | error e =>
      dsimp only
      cases e.returned? with
      | some v => exact keeps_pure v
      | none => exact keeps_throw trivial
  exact ⟨hloose.ok, fun hs h => ⟨(hloose.error hs h).1, hU.failure (Run.failure_of_catchReturn h)⟩⟩

omit hU in
theorem keeps_readCell (r : Ref) : U.Keeps (Run.readCell r) :=
  keeps_get_bind fun _ _ => keeps_pure _

theorem keeps_modifyGet {g : Store → α × Store}
    (h : ∀ s, s.Grows (g s).2 ∧ (g s).2.functions = s.functions) : U.Keeps (modifyGet g : Run α) where
  ok {s _ _} hs hx := by
    cases hx
    exact hU.grows hs (h s).1 (h s).2
  error _ hx := by cases hx

theorem keeps_modify {g : Store → Store} (h : ∀ s, s.Grows (g s) ∧ (g s).functions = s.functions) :
    U.Keeps (modify g : Run PUnit) :=
  keeps_modifyGet hU h

theorem keeps_writeCell (r : Ref) (v : Value) : U.Keeps (Run.writeCell r v) :=
  keeps_modify hU fun _ => ⟨⟨by simp, le_rfl, le_rfl, le_rfl, List.prefix_refl _, id⟩, rfl⟩

theorem keeps_newCells (values : List Value) : U.Keeps (Run.newCells values) :=
  keeps_modifyGet hU fun s => ⟨⟨by simp [← Array.length_toList], le_rfl, le_rfl, le_rfl, List.prefix_refl _, id⟩, rfl⟩

theorem keeps_enter (env : Env) (layout : Layout) : U.Keeps (Run.enter env layout) :=
  (keeps_newCells hU _).bind fun _ => keeps_pure _

theorem keeps_newSequence (items : List Value) : U.Keeps (Run.newSequence items) :=
  keeps_modifyGet hU fun _ => ⟨⟨le_rfl, by simp, le_rfl, le_rfl, List.prefix_refl _, id⟩, rfl⟩

theorem keeps_newList (items : List Value) : U.Keeps (Run.newList items) := (keeps_newSequence hU items).map _

theorem keeps_newArrayOf (elem : Ty) (items : List Value) : U.Keeps (Run.newArrayOf elem items) :=
  (keeps_newSequence hU items).map _

theorem keeps_writeSequence (r : Ref) (items : List Value) : U.Keeps (Run.writeSequence r items) :=
  keeps_modify hU fun _ => ⟨⟨le_rfl, by simp, le_rfl, le_rfl, List.prefix_refl _, id⟩, rfl⟩

theorem keeps_writeBuffer (r : Ref) (chars : List Char) : U.Keeps (Run.writeBuffer r chars) :=
  keeps_modify hU fun _ => ⟨⟨le_rfl, le_rfl, by simp, le_rfl, List.prefix_refl _, id⟩, rfl⟩

theorem keeps_newBuffer (chars : List Char) : U.Keeps (Run.newBuffer chars) :=
  keeps_modifyGet hU fun _ => ⟨⟨le_rfl, le_rfl, by simp, le_rfl, List.prefix_refl _, id⟩, rfl⟩

theorem keeps_newInstance (className : String) (members : List (String × Ty)) :
    U.Keeps (Run.newInstance className members) :=
  (keeps_newCells hU _).bind fun _ =>
    keeps_modifyGet hU fun _ => ⟨⟨le_rfl, le_rfl, le_rfl, le_rfl, List.prefix_refl _, id⟩, rfl⟩

theorem keeps_newMap {entries : Entries} (h : entries.Sorted) : U.Keeps (Run.newMap entries) :=
  keeps_modifyGet hU fun _ =>
    ⟨⟨le_rfl, le_rfl, le_rfl, by simp, List.prefix_refl _,
      fun hs => Array.forall_mem_push.mpr ⟨h, hs⟩⟩, rfl⟩

theorem keeps_writeMap (r : Ref) {g : Entries → Entries}
    (h : ∀ entries, entries.Sorted → (g entries).Sorted) :
    U.Keeps (get >>= fun s => Run.writeMap r (g (s.entries r))) := by
  have hgrows (s : Store) : s.Grows { s with maps := s.maps.setIfInBounds r (g (s.entries r)) } := by
    refine ⟨le_rfl, le_rfl, le_rfl, by simp, List.prefix_refl _, fun hs entries he => ?_⟩
    rcases Array.mem_or_eq_of_mem_setIfInBounds he with he | rfl
    · exact hs entries he
    · exact h _ (hs.sorted r)
  constructor
  · intro s a s' hs hx
    cases hx
    exact hU.grows hs (hgrows s) rfl
  · intro s e s' _ hx
    cases hx

theorem keeps_newFunction (info : FunctionInfo) {f : Callable} (hf : U.callable f) :
    U.Keeps (Run.newFunction info f) where
  ok hs hx := by
    cases hx
    exact hU.newFunction hs hf
  error _ hx := by cases hx

theorem keeps_newRecord (fields : List Value) : U.Keeps (Run.newRecord fields) :=
  keeps_modifyGet hU fun _ => ⟨⟨le_rfl, le_rfl, le_rfl, le_rfl, List.prefix_refl _, id⟩, rfl⟩

theorem keeps_writeRecord (r : Ref) (i : Nat) (v : Value) : U.Keeps (Run.writeRecord r i v) :=
  keeps_modify hU fun _ => ⟨⟨le_rfl, le_rfl, le_rfl, le_rfl, List.prefix_refl _, id⟩, rfl⟩

theorem keeps_recordCall (call : Call) : U.Keeps (Run.recordCall call) :=
  keeps_modify hU fun _ => ⟨⟨le_rfl, le_rfl, le_rfl, le_rfl, List.prefix_refl _, id⟩, rfl⟩

end Changes

end Upkeep

end ExprCore
