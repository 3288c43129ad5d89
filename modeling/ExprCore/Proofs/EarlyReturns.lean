import ExprCore.Host.Classes
import ExprCore.Proofs.Contexts
import ExprCore.Proofs.Upkeep.Evaluation

/-!
Early returns. One that stands in a block or a function of a tree ends there, so that the evaluation of a tree
with no other ones ends in none, whichever functions it calls. On the way out an early return passes handlers
by.
-/

namespace ExprCore
set_option autoImplicit false

/-- Whether a child is inside a block or a function of the tree. -/
def Entry.enclose (inside : Bool) : Entry → Bool
  | .here => inside
  | .block _ | .function _ => true

def Expr.isEarlyReturn : Expr → Bool
  | .earlyReturn _ => true
  | _ => false

/-- Every early return of a tree is inside a block or a function of the tree. -/
def Expr.ReturnsEnclosed (e : Expr) : Prop :=
  Expr.Within Entry.enclose (fun inside x => x.isEarlyReturn = true → inside = true) false e

/-- A native function that fails with no early return of its own: if it fails with one, then a call that it
made did. So do the native functions that it makes. -/
inductive Native.NeverReturns : Native → Prop where
  | intro {f : Native}
    (h : ∀ args, HostProgram.FailsAs NeverReturns (fun e => e.returned? = none)
      (fun e => e.returned? = none) (f.body args)) : NeverReturns f

def Operation.NeverReturns : Operation → Prop
  | .builtIn _ => True
  | .host f => ∀ args, (f.body args).FailsAs Native.NeverReturns (fun e => e.returned? = none)
    fun e => e.returned? = none

abbrev Expr.OperatorsNeverReturn (e : Expr) : Prop :=
  Within (fun _ _ => ()) (fun _ x => ∀ op, x.operation? = some op → op.NeverReturns) () e

def Callable.NeverReturns : Callable → Prop
  | .native f => f.NeverReturns
  | .operator op => op.NeverReturns
  | .closure f => f.body.OperatorsNeverReturn

/-- The host code that a store holds fails with no early returns of its own. -/
def Store.NeverReturns (s : Store) : Prop := ∀ f ∈ s.functions, f.NeverReturns

/-- The native functions that members of host classes make fail with no early returns of their own. -/
def Host.NeverReturns (host : Host) : Prop :=
  ∀ className, (host className).Members fun a =>
    a.FailsAs Native.NeverReturns (fun e => e.returned? = none) fun _ => True

def Upkeep.enclosed : Upkeep where
  good := Store.NeverReturns
  callable := Callable.NeverReturns
  fault := Halt.Failure
  halt := Halt.Failure
  tree e := e.ReturnsEnclosed ∧ e.OperatorsNeverReturn
  body := Expr.OperatorsNeverReturn

theorem Expr.operatorsNeverReturn_resolve {e : Expr} (h : e.OperatorsNeverReturn) (maxLevel : Nat)
    (scope : Scope) : (e.resolve maxLevel scope).value.OperatorsNeverReturn := by
  refine h.resolve (R := fun _ _ _ => True) (fun _ _ _ _ _ => trivial) (fun s _ _ e _ he => ?_) trivial
  have hr := resolves maxLevel s e
  generalize (e.resolve maxLevel s).value = r at hr
  cases hr with
  | name | member => exact nofun
  | kept =>
    rw [Expr.resolveChildren, operation?_mapChildren]
    exact he.holds

theorem Upkeep.enclosed_lawful : enclosed.Lawful where
  grows hs _ hf := fun f hm => hs f (hf ▸ hm)
  function {s} r hs := by
    show (s.callable r).NeverReturns
    unfold Store.callable
    cases hr : s.functions[r]? with
    | none => exact trivial
    | some f => exact hs f (Array.mem_of_getElem? hr)
  newFunction hs hf := Array.forall_mem_push.mpr ⟨hf, hs⟩
  failure h := h
  halt_of_fault h := h
  native args h := by
    cases h with
    | intro h => exact h args
  builtIn _ := trivial
  host args h := h args
  closure h := h
  child h ha := ⟨h.1.child ha, h.2.child ha⟩
  body_of_tree h := h.2
  inner h hc := h.child hc
  operation h hop := h.holds _ hop
  lambda _ h := Expr.operatorsNeverReturn_resolve (h.child List.mem_cons_self) _ _
  earlyReturn v h := by cases h.1.holds rfl

namespace Machine

variable {m : Machine} {env : Env} {body binding handler : Expr} {t : Ty} {s s' : Store} {e : EvalError}
  {v : Value}

theorem evalTry_returned (he : m.eval env body s = .error (.error e) s') (hr : e.returned? = some v) :
    m.evalTry env body binding handler t s = .error (.error e) s' := by
  rw [evalTry, Run.bind_ok _ (Run.outcome_error he)]
  simp only [hr]
  rfl

end Machine

/-- As long as host code fails with no early returns of its own, a tree whose early returns are enclosed ends
in none, and neither do calls of functions and methods with any arguments. An early return of the body of a
handler is what the node ends in, from the store that the body left. -/
theorem early_returns_enclosed (host : Host) (n : Nat) (s s' : Store) (err : EvalError) :
    (host.NeverReturns → s.NeverReturns →
      (∀ env (e : Expr), e.ReturnsEnclosed → e.OperatorsNeverReturn →
        eval host n env e s = .error (.error err) s' → err.returned? = none) ∧
      (∀ f args, (Machine.ofFuel host n).callForResult f args s = .error (.error err) s' →
        err.returned? = none) ∧
      ∀ receiver method args,
        (Machine.ofFuel host n).callMethod receiver method args s = .error (.error err) s' →
          err.returned? = none) ∧
    ∀ env body binding handler v, eval host n env body s = .error (.error err) s' →
      err.returned? = some v →
        eval host (n + 1) env (.tryCatch body binding handler) s = .error (.error err) s' := by
  have hU := Upkeep.enclosed_lawful
  refine ⟨fun hh hs => ?_, fun env body binding handler v hr hv => ?_⟩
  · have hm := Upkeep.serves hU hh n
    refine ⟨fun env e he hop hr => ?_, fun f args hr => ?_, fun receiver method args hr => ?_⟩
    · exact ((Upkeep.keeps_eval hU hh n env ⟨he, hop⟩).error hs hr).2
    · exact ((Upkeep.keeps_callForResult hm f args).error hs hr).2
    · exact ((Upkeep.keeps_callMethod hm receiver method args).error hs hr).2
  · exact Machine.evalTry_returned (m := Machine.ofFuel host n) hr hv

theorem HostClass.blank_neverReturns : Host.NeverReturns HostClass.blank := fun _ =>
  { construct := fun _ => .fail trivial
    getStatic := fun _ => .fail trivial
    setStatic := fun _ _ => .fail trivial
    invokeStatic := fun _ _ => .fail trivial
    getField := fun _ _ => .fail trivial
    setField := fun _ _ _ => .fail trivial
    invokeMethod := fun _ _ _ => .fail trivial }

namespace Sample

def returning : Expr := .lambda ⟨none, [], none, .any⟩ (.earlyReturn (.literal (.str "boom") .str))

def raising : Expr := .raise (.apply (.literal (.function applying.info 0) .any) [returning])

def applyStore : Store := { cells := #[.null], functions := #[.native applying] }

theorem applying_neverReturns : applying.NeverReturns := by
  refine .intro fun args => ?_
  show HostProgram.FailsAs _ _ _ (applying.body args)
  unfold applying
  dsimp only
  split
  · refine .call fun o ho => ?_
    cases o with
    | ok v => exact .done v
    | error e => exact .fail (ho e rfl)
  · exact .done _

end Sample

open Sample

/-- The function returns its text to the native function that calls it, and the text is raised. An early return
in a handled body passes by the handler, which would write the binding. -/
theorem early_returns_enclosed_applied :
    applyStore.NeverReturns ∧ raising.ReturnsEnclosed ∧ raising.OperatorsNeverReturn ∧
      (∃ s' err, eval HostClass.blank 9 [] raising applyStore = .error (.error err) s' ∧
        err.message = "boom" ∧ err.returned? = none) ∧
      eval HostClass.blank 9 [⟨[⟨"x", .any, false⟩], 0⟩] (.tryCatch (.earlyReturn (.literal (.int 1) .int))
        (.var ⟨"x", 0, 0, 0, false, .any⟩) (.literal (.int 2) .int)) applyStore =
          .error (.error (.of (.earlyReturn (.int 1)))) applyStore := by
  have hs : applyStore.NeverReturns := by
    intro f hf
    obtain rfl : f = .native applying := by simpa [applyStore] using hf
    exact applying_neverReturns
  -- The early return is inside the function.
  have within {γ : Type} {enter : γ → Entry → γ} {p : γ → Expr → Prop} {c : γ}
      (h : ∀ c x, x.isEarlyReturn = false → x.operation? = none → p c x)
      (hr : p (enter (enter (enter c .here) .here) (.function []))
        (.earlyReturn (.literal (.str "boom") .str))) : Expr.Within enter p c raising := by
    refine .intro (h _ _ rfl rfl) fun x hx => ?_
    obtain rfl := List.mem_singleton.mp hx
    refine .intro (h _ _ rfl rfl) fun x hx => ?_
    simp only [Expr.children, List.map_cons, List.map_nil, List.mem_cons, List.not_mem_nil, or_false] at hx
    rcases hx with rfl | rfl
    · exact .leaf (h _ _ rfl rfl) rfl
    · refine .intro (h _ _ rfl rfl) fun x hx => ?_
      obtain rfl := List.mem_singleton.mp hx
      refine .intro hr fun x hx => ?_
      obtain rfl := List.mem_singleton.mp hx
      exact .leaf (h _ _ rfl rfl) rfl
  have he : raising.ReturnsEnclosed := by
    refine within (fun _ x hx _ h => ?_) fun _ => rfl
    rw [hx] at h
    cases h
  have hop : raising.OperatorsNeverReturn := by
    refine within (fun _ x _ hx op h => ?_) fun _ h => by cases h
    rw [hx] at h
    cases h
  obtain ⟨s', err, hr, hm⟩ : ∃ s' err, eval HostClass.blank 9 [] raising applyStore =
      .error (.error err) s' ∧ err.message = "boom" := ⟨_, _, rfl, rfl⟩
  have hreturns := (early_returns_enclosed HostClass.blank 9 applyStore s' err).1
    HostClass.blank_neverReturns hs
  refine ⟨hs, he, hop, ⟨s', err, hr, hm, hreturns.1 [] raising he hop hr⟩, ?_⟩
  exact (early_returns_enclosed HostClass.blank 8 applyStore applyStore
    (.of (.earlyReturn (.int 1)))).2 _ _ _ _ (.int 1) rfl rfl

end ExprCore
