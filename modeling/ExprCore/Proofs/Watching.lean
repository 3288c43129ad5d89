import ExprCore.Interpreter
import ExprCore.Proofs.Likeness.Runs

/-!
Runs under a watch. A watch acts before a node is evaluated and once the node has its value; a watch
that does nothing wherever something holds, and yet never changes a run, tells that it holds at every
moment of the run.
-/

namespace ExprCore
set_option autoImplicit false

/-- What is done at the moments of a run. Once a node has a value, the watch also sees the store that its
evaluation began with. -/
structure Watch where
  before : Env → Expr → Run Unit
  after : Store → Env → Expr → Value → Run Unit

def evalWatched (watch : Watch) (host : Host) : Nat → Env → Expr → Run Value
  | 0, _, _ => throw .exhausted
  | n + 1, env, e => do
    let s ← get
    watch.before env e
    let v ← Machine.evalNode ⟨host, n, evalWatched watch host n⟩ env e
    watch.after s env e v
    pure v

/-- What may be said of the moments of a run. -/
structure Moments where
  before : Store → Env → Expr → Prop
  after : Store → Env → Expr → Value → Store → Prop

/-- A watch that does nothing at the moments of which `p` holds. -/
structure Watch.Idle (p : Moments) (watch : Watch) : Prop where
  before : ∀ {s env e}, p.before s env e → watch.before env e s = .ok () s
  after : ∀ {s env e v s'}, p.after s env e v s' → watch.after s env e v s' = .ok () s'

/-- What an interpreter is asked to do. -/
inductive Request where
  | run (fuel : Nat) (e : Expr)
  | eval (fuel : Nat) (e : Expr)
  | call (fuel : Nat) (function : Ref) (args : List Value)

namespace Request

def answer (i : Interpreter) (host : Host) : Request → Run Value
  | .run fuel e => i.run host fuel e
  | .eval fuel e => i.eval host fuel e
  | .call fuel f args => (Machine.ofFuel host fuel).call f args

def answerWatched (i : Interpreter) (host : Host) (watch : Watch) : Request → Run Value
  | .run fuel e => do
    let prepared := (i.prepare host fuel (← get) e).value
    Run.catchReturn (evalWatched watch host fuel i.globals prepared)
  | .eval fuel e => Run.catchReturn (evalWatched watch host fuel i.globals e)
  | .call fuel f args => Machine.call ⟨host, fuel, evalWatched watch host fuel⟩ f args

/-- At every moment of the answer `p` holds. -/
def Always (i : Interpreter) (host : Host) (p : Moments) (r : Request) (s : Store) : Prop :=
  ∀ watch : Watch, watch.Idle p → r.answerWatched i host watch s = r.answer i host s

end Request

/-- Trees as they are written, and what an interpreter prepares of them. -/
inductive Expr.Written (source : Expr → Prop) (i : Interpreter) (host : Host) : Expr → Prop where
  | source {e : Expr} (h : source e) : Written source i host e
  | prepared {e : Expr} (fuel : Nat) (s : Store) (h : Written source i host e) :
    Written source i host (i.prepare host fuel s e).value

/-- Runs and evaluations of trees of a kind, and all calls. -/
def Request.Over (kind : Expr → Prop) : Request → Prop
  | .run _ e | .eval _ e => kind e
  | .call .. => True

/-- Runs of trees, evaluations of prepared trees, and all calls. -/
def Request.Written (source : Expr → Prop) (i : Interpreter) (host : Host) : Request → Prop
  | .run _ e => e.Written source i host
  | .eval _ e => ∃ x fuel s, x.Written source i host ∧ e = (i.prepare host fuel s x).value
  | .call .. => True

/-- Requests one after the other, each of which may depend on the values that were handed out so far.
After them these values and the store are the given ones. -/
inductive Session (answer : Request → Run Value) (allowed : List Value → Request → Prop) (s₀ : Store)
    (known : List Value) : List Value → Store → Prop where
  | start : Session answer allowed s₀ known known s₀
  | answered {vs : List Value} {s s₁ : Store} {v : Value} (r : Request)
    (h : Session answer allowed s₀ known vs s) (hr : allowed vs r) (ha : answer r s = .ok v s₁) :
    Session answer allowed s₀ known (v :: vs) s₁
  | failed {vs : List Value} {s s₁ : Store} {halt : Halt} (r : Request)
    (h : Session answer allowed s₀ known vs s) (hr : allowed vs r)
    (ha : answer r s = .error halt s₁) : Session answer allowed s₀ known vs s₁

end ExprCore
