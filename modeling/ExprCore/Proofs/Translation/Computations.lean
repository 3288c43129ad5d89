import ExprCore.Proofs.Likeness.Operators
import ExprCore.Proofs.Likeness.Stores
import ExprCore.Proofs.Resolution

/-!
Translations of trees, and computations that commute with them. A translation keeps every node what it
is, in evaluated trees and in the bodies of functions; a computation commutes with it if on the
translated store it does what it does on the store, translated.
-/

namespace ExprCore
set_option autoImplicit false

open Correspondence (Runs)

/-- A translation of trees, in frames with given layouts. -/
structure Translation where
  tree : List Layout → Expr → Expr
  body : List Layout → Expr → Expr

namespace Translation

variable (T : Translation)

def callable : Callable → Callable
  | .closure f => .closure { f with body := T.tree (f.signature.layout :: f.env.layouts) f.body }
  | f => f

def store (s : Store) : Store := { s with functions := s.functions.map T.callable }

def result {α : Type} : EStateM.Result Halt Store α → EStateM.Result Halt Store α
  | .ok a s => .ok a (T.store s)
  | .error h s => .error h (T.store s)

def child (layouts : List Layout) : Entry → Expr → Expr
  | .here => T.tree layouts
  | .block layout => T.tree (layout :: layouts)
  | .function layout => T.body (layout :: layouts)

/-- A translation that keeps every node what it is. A body may be translated before its function is
made or afterwards. -/
structure Lawful : Prop where
  var (layouts : List Layout) (b : Binding) :
    ∃ level, T.tree layouts (.var b) = .var { b with level := level }
  node {layouts : List Layout} {e : Expr} (h : ∀ b, e ≠ .var b) :
    T.tree layouts e = e.mapChildren (T.child layouts)
  made (env : Env) (layout : Layout) (x : Expr) :
    T.tree (layout :: env.layouts) (x.resolve 1 ((Scope.ofEnv env).function layout)).value =
      ((T.body (layout :: env.layouts) x).resolve 1 ((Scope.ofEnv env).function layout)).value

/-- On translated stores the second computation does what the first does on stores. -/
def Commutes {α : Type} (x y : Run α) : Prop := ∀ s, y (T.store s) = T.result (x s)

theorem contents (s : Store) : Store.Contents .same s (T.store s) where
  items h := h ▸ Value.Likes.refl_same _
  chars h := h ▸ rfl
  entries h := h ▸ List.forall₂_same.mpr fun e _ => ⟨rfl, Value.Like.refl_same e.2⟩

theorem callable_store (s : Store) (r : Ref) :
    (T.store s).callable r = T.callable (s.callable r) := by
  show ((s.functions.map T.callable)[r]?).getD default = _
  rw [Array.getElem?_map, Store.callable]
  cases s.functions[r]? <;> rfl

theorem instanceAt_store (s : Store) (r : Ref) : (T.store s).instanceAt r = s.instanceAt r := rfl

variable {T} {α β : Type}

namespace Commutes

theorem pure (a : α) : T.Commutes (Pure.pure a) (Pure.pure a) := fun _ => rfl

theorem throw (h : Halt) : T.Commutes (throw h : Run α) (MonadExcept.throw h) := fun _ => rfl

theorem fail (kind : ErrorKind) : T.Commutes (Run.fail kind : Run α) (Run.fail kind) :=
  fun _ => rfl

theorem bind {x y : Run α} {f g : α → Run β} (h : T.Commutes x y)
    (hf : ∀ a, T.Commutes (f a) (g a)) : T.Commutes (x >>= f) (y >>= g) := by
  intro s
  have hs := h s
  cases hx : x s with
  | ok a s₁ =>
    rw [hx] at hs
    rw [Run.bind_ok g hs, Run.bind_ok f hx]
    exact hf a s₁
  | error halt s₁ =>
    rw [hx] at hs
    rw [Run.bind_error g hs, Run.bind_error f hx]
    rfl

theorem get_bind {f g : Store → Run β} (h : ∀ s, T.Commutes (f s) (g (T.store s))) :
    T.Commutes (get >>= f) (get >>= g) := fun s => h s s

theorem map {x y : Run α} (h : T.Commutes x y) (f : α → β) : T.Commutes (f <$> x) (f <$> y) := by
  rw [map_eq_pure_bind, map_eq_pure_bind]
  exact h.bind fun a => pure (f a)

theorem ofExcept (r : Except EvalError α) : T.Commutes (Run.ofExcept r) (Run.ofExcept r) := by
  cases r with
  | ok a => exact pure a
  | error e => exact throw _

theorem ofOption (r : Option α) : T.Commutes (Run.ofOption r) (Run.ofOption r) := by
  cases r with
  | some a => exact pure a
  | none => exact throw _

theorem outcome {x y : Run α} (h : T.Commutes x y) :
    T.Commutes (Run.outcome x) (Run.outcome y) := by
  intro s
  unfold Run.outcome
  rw [h s]
  cases x s with
  | ok => rfl
  | error halt => cases halt <;> rfl

theorem catchReturn {x y : Run Value} (h : T.Commutes x y) :
    T.Commutes (Run.catchReturn x) (Run.catchReturn y) := by
  refine h.outcome.bind fun o => ?_
  cases o with
  | ok v => exact pure v
  | error e =>
    dsimp only
    cases e.returned? with
    | some v => exact pure v
    | none => exact throw _

end Commutes

theorem commutes_newFunction (info : FunctionInfo) (f : Callable) :
    T.Commutes (Run.newFunction info f) (Run.newFunction info (T.callable f)) := by
  intro s
  show EStateM.Result.ok (Value.function info (s.functions.map T.callable).size)
    { s with functions := (s.functions.map T.callable).push (T.callable f) } = _
  rw [Array.size_map, ← Array.map_push]
  rfl

theorem display_store (s : Store) (n : Nat) (v : Value) : v.display (T.store s) n = v.display s n :=
  ((T.contents s).display_eq n (.refl_same v)).symm

theorem equal_store (s : Store) (n : Nat) (v w : Value) :
    Value.equal (T.store s) n v w = Value.equal s n v w :=
  ((T.contents s).equal_eq n (.refl_same v) (.refl_same w)).symm

theorem truth_store (s : Store) (v : Value) : v.truth (T.store s) = v.truth s :=
  ((T.contents s).truth_eq (.refl_same v)).symm

variable {v w : Value} {n : Nat}

/-- Translated stores beside stores. -/
abbrev correspondence (T : Translation) : Correspondence where
  World := Still
  order := inferInstance
  links _ := .same
  links_mono _ := le_rfl
  strict := true
  lax := false
  good _ s s' := s' = T.store s
  contents h := h ▸ T.contents _
  newSequence := by
    rintro _ s _ items items' rfl hi
    obtain rfl := Value.Likes.eq_of_same_le le_rfl hi
    exact ⟨.still, le_rfl, rfl, rfl⟩

theorem halt_eq {h h' : Halt} (hh : Halt.Like true .same h h') : h = h' := by
  cases hh with
  | @error e e' he =>
    obtain ⟨kind, notes⟩ := e
    obtain ⟨kind', notes'⟩ := e'
    obtain ⟨hk, hn⟩ := he
    obtain rfl : notes = notes' := hn rfl
    cases hk with
    | failure => rfl
    | earlyReturn hv => rw [hv.eq_of_same_le le_rfl]
  | placeholder | exhausted => rfl

/-- Runs that are matched on translated stores, with equal results. -/
theorem commutes_of_runs {R : α → α → Prop} (hR : ∀ a b, R a b → a = b) {x y : Run α}
    (h : Runs (C := T.correspondence) .still (fun _ => R) x fun _ => y) : T.Commutes x y := by
  intro s
  rcases h .still le_rfl s _ rfl with ⟨hl, -⟩ | ⟨r, hr, he⟩
  · cases hl
  obtain ⟨_, hy⟩ := hr.exists
  refine Eq.trans hy ?_
  generalize x s = q at he
  cases he with
  | ok _ hs h => rw [show _ = T.store _ from hs, hR _ _ h]; rfl
  | error _ hs hh => rw [show _ = T.store _ from hs, halt_eq hh]; rfl

theorem commutes_operator (op : Operator) (n : Nat) (args : List Value) :
    T.Commutes (op.invoke n args) (op.invoke n args) := by
  have hf : T.correspondence.Fuels n fun _ => n := .of_forall fun _ => rfl
  exact commutes_of_runs (fun _ _ h => Value.Like.eq_of_same_le le_rfl h)
    (Correspondence.runs_operator op hf (.refl_same args))

theorem commutes_arith (op : Arith) (n : Nat) (v w : Value) :
    T.Commutes (op.invoke n v w) (op.invoke n v w) :=
  commutes_operator (.arith op) n [v, w]

section Indexables

variable (c : Indexable) (key : Value)

theorem get_store (s : Store) : c.get (T.store s) key = c.get s key := by
  cases c <;> rfl

theorem commutes_storeInArray (elem : Ty) (r : Ref) (i : Nat) (v : Value) :
    T.Commutes (Indexable.storeInArray elem r i v) (Indexable.storeInArray elem r i v) := by
  refine (Commutes.ofExcept _).bind fun v => .get_bind fun s => ?_
  show T.Commutes (if i < (s.items r).length then _ else _) (if i < (s.items r).length then _ else _)
  split
  · exact Commutes.bind (fun _ => rfl) fun _ => .pure v
  · exact .fail _

theorem commutes_set (v : Value) : T.Commutes (c.set key v) (c.set key v) := by
  cases c with
  | text => exact .fail _
  | buffer r =>
    refine (Commutes.ofExcept _).bind fun u => ?_
    cases u with
    | char ch =>
      refine .get_bind fun s => (Commutes.ofExcept _).bind fun i => ?_
      exact Commutes.bind (fun _ => rfl) fun _ => .pure _
    | _ => exact .fail _
  | list r =>
    refine .get_bind fun s => (Commutes.ofExcept _).bind fun i => ?_
    exact Commutes.bind (fun _ => rfl) fun _ => .pure v
  | array elem r =>
    refine .get_bind fun s => (Commutes.ofExcept _).bind fun i => ?_
    exact commutes_storeInArray elem r i v
  | map r =>
    refine (Commutes.ofExcept _).bind fun k => .get_bind fun s => ?_
    exact Commutes.bind (fun _ => rfl) fun _ => .pure v

theorem commutes_slice (lo hi : Int) : T.Commutes (c.slice lo hi) (c.slice lo hi) := by
  refine .get_bind fun s => ?_
  cases c with
  | text | buffer => exact (Commutes.ofExcept _).bind fun chars => .pure _
  | list r => exact (Commutes.ofExcept _).bind fun items _ => rfl
  | array elem r =>
    exact (Commutes.ofExcept _).bind fun items => (Commutes.ofExcept _).bind fun us _ => rfl
  | map => exact .fail _

end Indexables

theorem commutes_memberCell (object : Ref) (name : String) :
    T.Commutes (Run.memberCell object name) (Run.memberCell object name) := by
  refine .get_bind fun s => ?_
  rw [instanceAt_store]
  dsimp only
  cases (s.instanceAt object).member? name with
  | some member => exact .pure member
  | none => exact .fail _

theorem commutes_hostOp (op : HostOp) : T.Commutes (op.run n) (op.run n) := by
  cases op with
  | newList | newBuffer | newMap => exact fun _ => rfl
  | newArray elem items => exact (Commutes.ofExcept _).bind fun us _ => rfl
  | newObject className members => exact Commutes.bind (fun _ => rfl) fun base _ => rfl
  | newOperator op => exact commutes_newFunction _ (.operator (.builtIn op))
  | writeList | writeBuffer | writeMap => exact Commutes.bind (fun _ => rfl) fun _ => .pure _
  | writeElement elem r i v => exact commutes_storeInArray elem r i v
  | readMember object name => exact (commutes_memberCell object name).bind fun _ _ => rfl
  | writeMember object name v =>
    refine (commutes_memberCell object name).bind fun c => (Commutes.ofExcept _).bind fun w => ?_
    exact Commutes.bind (fun _ => rfl) fun _ => .pure w
  | display v =>
    refine .get_bind fun s => ?_
    rw [display_store]
    exact (Commutes.ofOption _).bind fun _ => .pure _
  | equal v w =>
    refine .get_bind fun s => ?_
    rw [equal_store]
    exact (Commutes.ofOption _).bind fun _ => .pure _

end Translation

end ExprCore
