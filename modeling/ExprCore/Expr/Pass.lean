import ExprCore.Expr

/-!
Revision of trees from the leaves up. A pass tells what to do with a node whose children have been
revised already; the result tells whether anything changed.
-/

namespace ExprCore
set_option autoImplicit false

/-- A revised value, and whether it differs from the one it was made of. -/
structure Revised (α : Type) where
  value : α
  changed : Bool

namespace Revised

variable {α β : Type}

instance : Monad Revised where
  pure a := ⟨a, false⟩
  bind x f :=
    let y := f x.value
    ⟨y.value, x.changed || y.changed⟩

@[simp] theorem value_pure (a : α) : (pure a : Revised α).value = a := rfl

@[simp] theorem changed_pure (a : α) : (pure a : Revised α).changed = false := rfl

@[simp] theorem value_bind (x : Revised α) (f : α → Revised β) :
    (x >>= f).value = (f x.value).value := rfl

@[simp] theorem changed_bind (x : Revised α) (f : α → Revised β) :
    (x >>= f).changed = (x.changed || (f x.value).changed) := rfl

def replace (old : α) : Option α → Revised α
  | some new => ⟨new, true⟩
  | none => ⟨old, false⟩

end Revised

/-- A pass over trees with a context of type `γ`. -/
structure Pass (γ : Type) where
  enterBlock : γ → Layout → γ
  enterFunction : γ → Layout → γ
  /-- What becomes of a node with revised children. -/
  rule : γ → Expr → Revised Expr

namespace Pass

variable {γ : Type}

mutual

def revise (p : Pass γ) (c : γ) : Expr → Revised Expr
  | .literal v t => p.rule c (.literal v t)
  | .name n => p.rule c (.name n)
  | .var binding => p.rule c (.var binding)
  | .scopeRef hops => p.rule c (.scopeRef hops)
  | .operator form op operands => do
    p.rule c (.operator form op (← p.reviseAll c operands))
  | .logical op lhs rhs => do
    p.rule c (.logical op (← p.revise c lhs) (← p.revise c rhs))
  | .conditional cond thenBranch elseBranch => do
    p.rule c (.conditional (← p.revise c cond) (← p.revise c thenBranch)
      (← p.revise c elseBranch))
  | .sequence items => do p.rule c (.sequence (← p.reviseAll c items))
  | .before first second => do
    p.rule c (.before (← p.revise c first) (← p.revise c second))
  | .cast target operand => do p.rule c (.cast target (← p.revise c operand))
  | .instanceOf operand target => do p.rule c (.instanceOf (← p.revise c operand) target)
  | .assign mode target value => do
    p.rule c (.assign mode (← p.revise c target) (← p.revise c value))
  | .compound op target value result => do
    p.rule c (.compound op (← p.revise c target) (← p.revise c value) result)
  | .step step target => do p.rule c (.step step (← p.revise c target))
  | .index base index => do p.rule c (.index (← p.revise c base) (← p.revise c index))
  | .slice base lo hi => do
    p.rule c (.slice (← p.revise c base) (← p.revise c lo) (← p.revise c hi))
  | .member kind object name => do p.rule c (.member kind (← p.revise c object) name)
  | .staticField className field => p.rule c (.staticField className field)
  | .methodCall receiver method args => do
    p.rule c (.methodCall (← p.revise c receiver) method (← p.reviseAll c args))
  | .staticCall className method args => do
    p.rule c (.staticCall className method (← p.reviseAll c args))
  | .new className args => do p.rule c (.new className (← p.reviseAll c args))
  | .apply callee args => do
    p.rule c (.apply (← p.revise c callee) (← p.reviseAll c args))
  | .lambda signature body => do
    p.rule c (.lambda signature (← p.revise (p.enterFunction c signature.layout) body))
  | .block layout body ret => do
    p.rule c (.block layout (← p.reviseAll (p.enterBlock c layout) body) ret)
  | .earlyReturn value => do p.rule c (.earlyReturn (← p.revise c value))
  | .arrayLiteral elem items => do p.rule c (.arrayLiteral elem (← p.reviseAll c items))
  | .arrayAlloc elem length => do p.rule c (.arrayAlloc elem (← p.revise c length))
  | .listLiteral elem items => do p.rule c (.listLiteral elem (← p.reviseAll c items))
  | .extendList list elem items => do
    p.rule c (.extendList (← p.revise c list) elem (← p.reviseAll c items))
  | .mapLiteral value entries => do p.rule c (.mapLiteral value (← p.reviseEntries c entries))
  | .extendMap map value entries => do
    p.rule c (.extendMap (← p.revise c map) value (← p.reviseEntries c entries))
  | .loop cond body => do p.rule c (.loop (← p.revise c cond) (← p.revise c body))
  | .tryCatch body binding handler => do
    p.rule c (.tryCatch (← p.revise c body) (← p.revise c binding) (← p.revise c handler))
  | .raise message => do p.rule c (.raise (← p.revise c message))

def reviseAll (p : Pass γ) (c : γ) : List Expr → Revised (List Expr)
  | [] => pure []
  | e :: es => do pure ((← p.revise c e) :: (← p.reviseAll c es))

def reviseEntries (p : Pass γ) (c : γ) :
    List (Expr × Expr) → Revised (List (Expr × Expr))
  | [] => pure []
  | (key, value) :: entries => do
    pure ((← p.revise c key, ← p.revise c value) :: (← p.reviseEntries c entries))

end

end Pass

end ExprCore
