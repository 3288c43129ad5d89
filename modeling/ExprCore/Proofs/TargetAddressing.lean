import ExprCore.Host.Classes
import ExprCore.Proofs.Increments

/-!
The target of an assignment. What it is made of is evaluated first, once and from left to right, so that
an assignment to it is one to a target made of the values that this yields. If it fails, nothing else of
the assignment happens.
-/

namespace ExprCore
set_option autoImplicit false

namespace Expr

/-- What a target is made of, from left to right. -/
def parts : Expr → List Expr
  | .index base key => [base, key]
  | .member _ object _ => [object]
  | _ => []

def withParts : Expr → List Value → Expr
  | .index _ _, [base, key] => .index (ofValue base) (ofValue key)
  | .member kind _ field, [object] => .member kind (ofValue object) field
  | target, _ => target

end Expr

/-- What is done to the target of an assignment. -/
inductive Update where
  | assign (mode : AssignMode) (value : Expr)
  | compound (op : Operation) (value : Expr) (result : Option Ty)
  | step (k : Step)

def Update.node (target : Expr) : Update → Expr
  | .assign mode value => .assign mode target value
  | .compound op value result => .compound op target value result
  | .step k => .step k target

namespace Machine

variable {m : Machine} {env : Env} {e e₁ e₂ target : Expr} {vs : List Value} {s s' : Store} {halt : Halt}

/-- The part of an assignment that follows the look-up of its place. -/
def updateAt (m : Machine) (env : Env) (u : Update) (p : Place) : Run Value :=
  match u with
  | .assign mode value => do m.writeAs mode p (← m.eval env value)
  | .compound op value result => do
    let old ← m.read p
    let v ← m.eval env value
    let w ← m.operate op (← Run.ofExcept (op.validate [old, v]))
    m.write p (← Run.ofExcept ((result.getD .any).cast w))
  | .step k => m.stepAt k p

theorem evalNode_update (m : Machine) (env : Env) (u : Update) (target : Expr) :
    m.evalNode env (u.node target) = m.place env target >>= m.updateAt env u := by
  cases u <;> rfl

theorem evalAll_one_ok (h : m.evalAll env [e] s = .ok vs s') :
    ∃ v, vs = [v] ∧ m.eval env e s = .ok v s' := by
  obtain ⟨v, s₁, hv, h⟩ := Run.ok_of_bind h
  cases h
  exact ⟨v, rfl, hv⟩

theorem evalAll_one_error (h : m.evalAll env [e] s = .error halt s') :
    m.eval env e s = .error halt s' := by
  rcases Run.error_of_bind h with h | ⟨v, s₁, -, h⟩
  · exact h
  · cases h

theorem place_parts (hlit : ∀ v, m.eval env (.ofValue v) = pure v)
    (h : m.evalAll env target.parts s = .ok vs s') :
    m.place env target s = m.place env (target.withParts vs) s' := by
  cases target with
  | index base key =>
    obtain ⟨v, s₁, hbase, h⟩ := Run.ok_of_bind h
    obtain ⟨ks, s₂, h, hks⟩ := Run.ok_of_bind h
    obtain ⟨k, rfl, hkey⟩ := evalAll_one_ok h
    cases hks
    show (m.eval env base >>= fun v => m.eval env key >>= _) s =
      (m.eval env (.ofValue v) >>= fun v => m.eval env (.ofValue k) >>= _) _
    rw [Run.bind_ok _ hbase, Run.bind_ok _ hkey, hlit, hlit]
    rfl
  | member kind object name =>
    obtain ⟨v, rfl, hobject⟩ := evalAll_one_ok h
    show (m.eval env object >>= _) s = (m.eval env (.ofValue v) >>= _) _
    rw [Run.bind_ok _ hobject, hlit]
    rfl
  | _ =>
    cases h
    rfl

theorem place_parts_error (h : m.evalAll env target.parts s = .error halt s') :
    m.place env target s = .error halt s' := by
  cases target with
  | index base key =>
    rcases Run.error_of_bind h with hbase | ⟨v, s₁, hbase, h⟩
    · exact Run.bind_error _ hbase
    · rcases Run.error_of_bind h with hkey | ⟨vs, s₂, -, h⟩
      · show (m.eval env base >>= fun v => m.eval env key >>= _) s = _
        rw [Run.bind_ok _ hbase, Run.bind_error _ (evalAll_one_error hkey)]
      · cases h
  | member kind object name => exact Run.bind_error _ (evalAll_one_error h)
  | _ => cases h

end Machine

/-- What a target is made of is evaluated before all else that an assignment does. If that yields values,
the assignment goes on as one to a target made of these values; if it fails, so does the assignment, and
the store is as it was when it failed. -/
theorem target_evaluated_first (host : Host) (n : Nat) (env : Env) (u : Update) (target : Expr) (s : Store) :
    (∀ vs s', (Machine.ofFuel host n).evalAll env target.parts s = .ok vs s' →
      eval host (n + 1) env (u.node target) s = eval host (n + 1) env (u.node (target.withParts vs)) s') ∧
    ∀ halt s', (Machine.ofFuel host n).evalAll env target.parts s = .error halt s' →
      eval host (n + 1) env (u.node target) s = .error halt s' := by
  constructor
  · intro vs s' h
    have hplace : (Machine.ofFuel host n).place env target s =
        (Machine.ofFuel host n).place env (target.withParts vs) s' := by
      cases n with
      | succ n => exact Machine.place_parts (fun v => rfl) h
      | zero =>
        -- Without fuel only a target that is made of nothing is evaluated.
        cases target with
        | index | member => cases h
        | _ =>
          cases h
          rfl
    show (Machine.ofFuel host n).evalNode env (u.node target) s =
      (Machine.ofFuel host n).evalNode env (u.node (target.withParts vs)) s'
    rw [Machine.evalNode_update, Machine.evalNode_update]
    exact Run.bind_congr _ hplace
  · intro halt s' h
    show (Machine.ofFuel host n).evalNode env (u.node target) s = _
    rw [Machine.evalNode_update]
    exact Run.bind_error _ (Machine.place_parts_error h)

namespace Sample

def listEnv : Env := [⟨[⟨"xs", .any, false⟩, ⟨"i", .int, false⟩], 0⟩]

def listVar : Expr := .var ⟨"xs", 0, 0, 0, false, .any⟩

def indexVar : Expr := .var ⟨"i", 1, 0, 0, false, .int⟩

def listStore : Store := { cells := #[.list 0, .int 0], sequences := #[[.int 5, .int 6]] }

/-- The list at the index that is assigned on the way. -/
def assigningTarget : Expr := .index listVar (.assign .assign indexVar (.literal (.int 1) .int))

def raisingTarget : Expr := .index listVar (.raise (.literal (.str "no index") .str))

def rebinding : Update := .assign .assign (.assign .assign listVar (.listLiteral .any []))

end Sample

open Sample in
/-- The list that is written is the one that was found first, although its name stands for another one when
it is written. -/
theorem target_evaluated_first_rebinding :
    let m := Machine.ofFuel (standardHost 0) 8
    let found : Store := { listStore with cells := #[.list 0, .int 1] }
    let written : Store :=
      { cells := #[.list 1, .int 1], sequences := #[[.int 5, .list 1], []] }
    let noIndex := Halt.error (.of (.thrown "no index"))
    (m.evalAll listEnv assigningTarget.parts listStore = .ok [.list 0, .int 1] found ∧
      eval (standardHost 0) 9 listEnv (rebinding.node assigningTarget) listStore =
        eval (standardHost 0) 9 listEnv (rebinding.node (assigningTarget.withParts [.list 0, .int 1])) found ∧
      eval (standardHost 0) 9 listEnv (rebinding.node assigningTarget) listStore = .ok (.list 1) written) ∧
    m.evalAll listEnv raisingTarget.parts listStore = .error noIndex listStore ∧
      eval (standardHost 0) 9 listEnv (rebinding.node raisingTarget) listStore = .error noIndex listStore := by
  intro m found written noIndex
  have hfound : m.evalAll listEnv assigningTarget.parts listStore = .ok [.list 0, .int 1] found := rfl
  have hraised : m.evalAll listEnv raisingTarget.parts listStore = .error noIndex listStore := rfl
  refine ⟨⟨hfound, ?_, rfl⟩, hraised, ?_⟩
  · exact (target_evaluated_first (standardHost 0) 8 listEnv rebinding assigningTarget listStore).1 _ _ hfound
  · exact (target_evaluated_first (standardHost 0) 8 listEnv rebinding raisingTarget listStore).2 _ _ hraised

end ExprCore
