import ExprCore.Host.Classes
import ExprCore.Proofs.Increments

/-!
Compound assignment and its expansion. The expansion casts the result of the operator to its static type
once more, which changes nothing as long as the operands conform to theirs, and it finds the variable
twice, which yields the same cell. Increments are compound assignments of one.
-/

namespace ExprCore
set_option autoImplicit false

namespace Expr

/-- The value that a compound assignment assigns. -/
def combination (op : Operation) (target value : Expr) : Option Ty → Expr
  | none => .operator .binary op [target, value]
  | some t => .cast t (.operator .binary op [target, value])

def expansion (op : Operation) (target value : Expr) (result : Option Ty) : Expr :=
  .assign .assign target (combination op target value result)

end Expr

theorem Operation.eq_of_validate {op : Operation} {args args' : List Value}
    (h : op.validate args = .ok args') : args' = args := by
  unfold validate at h
  split at h
  · cases h
    rfl
  · cases h

theorem Operator.conforms_node {op : Operator} {args : List Value} {operands : List Expr} {r : Value}
    {fuel : Nat} {s s' : Store} (form : OperatorForm)
    (hv : List.Forall₂ Ty.Conforms (operands.map Expr.type) args)
    (h : op.invoke fuel args s = .ok r s') :
    (Expr.operator form (.builtIn op) operands).type.Conforms r := by
  rw [Expr.type, Expr.types_eq_map]
  split
  · rename_i t ht
    by_cases hop : op = .range
    · subst hop
      obtain ⟨elem, ref, rfl, rfl, -⟩ := conforms_invokeRange hv ht h
      exact Ty.conforms_list elem ref
    · exact conforms_invoke hop hv ht h
  · exact Ty.conforms_any r

namespace Machine

variable {host : Host} {m : Machine} {env : Env} {target value : Expr}
  {result : Option Ty} {b : Binding} {r : Ref} {old : Value} {s : Store}

theorem place_slot (m : Machine) (h : env.cell? b.depth b.address = some r) :
    m.place env (.var b) = pure (.cell r b.name b.type b.final) := by
  show (cellOf env b >>= fun r => pure (Place.cell r b.name b.type b.final)) = _
  rw [cellOf, h]
  rfl

theorem place_missing (m : Machine) (h : env.cell? b.depth b.address = none) (s : Store) :
    m.place env (.var b) s = .error (.error (missingSlot b)) s := by
  show (cellOf env b >>= fun r => pure (Place.cell r b.name b.type b.final)) s = _
  rw [cellOf, h]
  rfl

theorem evalNode_slot (m : Machine) (h : env.cell? b.depth b.address = some r) (s : Store) :
    m.evalNode env (.var b) s = .ok (s.cell r) s := by
  show (m.place env (.var b) >>= m.read) s = _
  rw [place_slot m h]
  rfl

theorem write_cell_eq (m m' : Machine) (r : Ref) (name : String) (t : Ty) (final : Bool) :
    m.write (.cell r name t final) = m'.write (.cell r name t final) := by
  cases final <;> rfl

/-- Applies an operator to a value that was read and to that of an expression. -/
def combine (m : Machine) (env : Env) (op : Operation) (old : Value) (value : Expr) : Run Value := do
  let v ← m.eval env value
  m.operate op (← Run.ofExcept (op.validate [old, v]))

theorem evalCompound_eq (m : Machine) (env : Env) (op : Operation) (target value : Expr)
    (result : Option Ty) : m.evalCompound env op target value result =
      m.place env target >>= fun p => m.read p >>= fun old =>
        (m.combine env op old value >>= fun w => Run.ofExcept ((result.getD .any).cast w)) >>=
          m.write p := by
  simp only [evalCompound, combine, bind_assoc]

/-- The cast of the result to the static type of the node does nothing. -/
theorem evalOperator_eq {op : Operator} (form : OperatorForm) (htarget : m.eval env target s = .ok old s)
    (hold : target.type.Conforms old)
    (hvalue : ∀ v s', m.eval env value s = .ok v s' → value.type.Conforms v) :
    m.evalOperator env (.builtIn op) [target, value]
        (Expr.operator form (.builtIn op) [target, value]).type s =
      m.combine env (.builtIn op) old value s := by
  have hargs : m.evalAll env [target, value] s =
      (m.eval env value >>= fun v => pure [old, v]) s := by
    show (m.eval env target >>= _) s = _
    rw [Run.bind_ok _ htarget]
    simp only [evalAll, bind_assoc, pure_bind]
  show (m.evalAll env [target, value] >>= _) s = (m.eval env value >>= _) s
  cases hv : m.eval env value s with
  | error halt s₁ =>
    rw [Run.bind_error _ hv] at hargs ⊢
    rw [Run.bind_error _ hargs]
  | ok v s₁ =>
    rw [Run.bind_ok _ hv] at hargs ⊢
    rw [Run.bind_ok _ hargs]
    cases ha : (Operation.builtIn op).validate [old, v] with
    | error e => rfl
    | ok args =>
      obtain rfl := Operation.eq_of_validate ha
      show (op.invoke m.fuel [old, v] >>= _) s₁ = op.invoke m.fuel [old, v] s₁
      cases hr : op.invoke m.fuel [old, v] s₁ with
      | error halt s₂ => rw [Run.bind_error _ hr]
      | ok w s₂ =>
        have hconforms : List.Forall₂ Ty.Conforms ([target, value].map Expr.type) [old, v] :=
          .cons hold (.cons (hvalue v s₁ hv) .nil)
        have hw := Operator.conforms_node form hconforms hr
        rw [Run.bind_ok _ hr, hw.castNoting]
        rfl

/-- To step a target before its value is taken is to add the amount of the step to it. -/
theorem evalStep_eq_compound {k : Step} (hk : k.yieldsNew = true)
    (hlit : m.eval env (.ofValue (.int k.delta)) = pure (.int k.delta)) :
    m.evalStep env k target =
      m.evalCompound env (.arith .add) target (.ofValue (.int k.delta)) none := by
  have hsum (old : Value) : (m.combine env (.arith .add) old (.ofValue (.int k.delta)) >>= fun w =>
      Run.ofExcept (Ty.any.cast w)) = Arith.add.invoke m.fuel old (.int k.delta) := by
    rw [combine, hlit, pure_bind]
    exact bind_pure _
  rw [evalCompound_eq, evalStep]
  simp only [Option.getD_none, hsum, hk, if_true, bind_pure]

end Machine

variable {host : Host} {env : Env} {b : Binding} {value : Expr} {s : Store}

def Expr.expansionDepth : Option Ty → Nat
  | none => 1
  | some _ => 2

theorem eval_combination (op : Operator) (result : Option Ty) {r : Ref}
    (hr : env.cell? b.depth b.address = some r) (hcell : b.type.Conforms (s.cell r)) (n : Nat)
    (hvalue : ∀ v s', eval host n env value s = .ok v s' → value.type.Conforms v) :
    eval host (n + Expr.expansionDepth result) env
        (Expr.combination (.builtIn op) (.var b) value result) s =
      ((Machine.ofFuel host n).combine env (.builtIn op) (s.cell r) value >>= fun w =>
        Run.ofExcept ((result.getD .any).cast w)) s := by
  have hsum : eval host (n + 1) env (.operator .binary (.builtIn op) [.var b, value]) s =
      (Machine.ofFuel host n).combine env (.builtIn op) (s.cell r) value s := by
    cases n with
    | zero => rfl
    | succ n =>
      exact Machine.evalOperator_eq (m := Machine.ofFuel host (n + 1)) .binary
        (Machine.evalNode_slot (Machine.ofFuel host n) hr s) hcell hvalue
  cases result with
  | none =>
    show eval host (n + 1) env (.operator .binary (.builtIn op) [.var b, value]) s =
      ((Machine.ofFuel host n).combine env (.builtIn op) (s.cell r) value >>= pure) s
    rw [hsum, bind_pure]
  | some t =>
    exact Run.bind_congr _ hsum

/-- A compound assignment to a variable does what its expansion does, which needs as much more fuel as it
nests deeper, if the cell and what the value yields conform to their types. To increment or decrement a
target before its value is taken is to add 1 or -1 to it. -/
theorem compound_assignment_expands (op : Operator) (result : Option Ty)
    (hcell : ∀ r, env.cell? b.depth b.address = some r → b.type.Conforms (s.cell r))
    (hvalue : ∀ n v s', eval host n env value s = .ok v s' → value.type.Conforms v) (n : Nat) :
    eval host (n + 1) env (.compound (.builtIn op) (.var b) value result) s =
        eval host (n + Expr.expansionDepth result + 1) env
          (Expr.expansion (.builtIn op) (.var b) value result) s ∧
      ∀ target s₁,
        eval host (n + 2) env (.step .preInc target) s₁ =
            eval host (n + 2) env (.compound (.arith .add) target (.ofValue (.int 1)) none) s₁ ∧
          eval host (n + 2) env (.step .preDec target) s₁ =
            eval host (n + 2) env (.compound (.arith .add) target (.ofValue (.int (-1))) none) s₁ := by
  constructor
  · let m := Machine.ofFuel host n
    let deeper := Machine.ofFuel host (n + Expr.expansionDepth result)
    show m.evalCompound env (.builtIn op) (.var b) value result s = deeper.evalAssign env .assign (.var b) _ s
    rw [Machine.evalCompound_eq]
    show _ = (deeper.place env (.var b) >>= _) s
    cases hr : env.cell? b.depth b.address with
    | none => rw [Run.bind_error _ (m.place_missing hr s), Run.bind_error _ (deeper.place_missing hr s)]
    | some r =>
      rw [m.place_slot hr, deeper.place_slot hr, pure_bind, pure_bind]
      show _ = (_ >>= deeper.write (.cell r b.name b.type b.final)) s
      rw [deeper.write_cell_eq m]
      exact Run.bind_congr _ (eval_combination op result hr (hcell r hr) n (hvalue n)).symm
  · intro target s₁
    let m := Machine.ofFuel host (n + 1)
    exact ⟨congrFun (m.evalStep_eq_compound (k := .preInc) rfl rfl) s₁,
      congrFun (m.evalStep_eq_compound (k := .preDec) rfl rfl) s₁⟩

namespace Sample

def countEnv : Env := [⟨[⟨"x", .int, false⟩], 0⟩]

def countBinding : Binding := ⟨"x", 0, 0, 0, false, .int⟩

def overwriting : Expr := .assign .assign (.var countBinding) (.literal (.int 10) .int)

end Sample

open Sample in
/-- The variable is read before the value overwrites it, in the expansion too. -/
theorem compound_assignment_expands_overwriting :
    let s : Store := { cells := #[.int 5] }
    let s' : Store := { cells := #[.int 15] }
    eval (standardHost 0) 9 countEnv (.compound (.arith .add) (.var countBinding) overwriting (some .long)) s =
        .ok (.int 15) s' ∧
      eval (standardHost 0) 11 countEnv
          (Expr.expansion (.arith .add) (.var countBinding) overwriting (some .long)) s = .ok (.int 15) s' := by
  intro s s'
  have hrun : eval (standardHost 0) 9 countEnv
      (.compound (.arith .add) (.var countBinding) overwriting (some .long)) s = .ok (.int 15) s' := rfl
  refine ⟨hrun, ?_⟩
  have hcell : ∀ r, countEnv.cell? countBinding.depth countBinding.address = some r →
      countBinding.type.Conforms (s.cell r) := by
    intro r hr
    cases hr
    rfl
  have hvalue : ∀ n v s₁, eval (standardHost 0) n countEnv overwriting s = .ok v s₁ →
      overwriting.type.Conforms v := by
    intro n v s₁ h
    match n with
    | 0 | 1 => cases h
    | n + 2 =>
      cases h
      rfl
  exact (compound_assignment_expands (.arith .add) (some .long) hcell hvalue 8).1.symm.trans hrun

end ExprCore
