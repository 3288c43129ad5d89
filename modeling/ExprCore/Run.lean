import ExprCore.Store

/-!
Computations on the store. One that does not yield a value fails with an error, meets a placeholder
for a scope, or runs out of fuel; in each case it leaves the store as far as it got.
-/

namespace ExprCore
set_option autoImplicit false

inductive Halt where
  | error (e : EvalError)
  | placeholder (hops : Nat)
  | exhausted

abbrev Run := EStateM Halt Store

namespace Run

variable {α : Type}

def fail (kind : ErrorKind) : Run α := throw (.error (.of kind))

def ofExcept : Except EvalError α → Run α
  | .ok a => pure a
  | .error e => throw (.error e)

/-- A walk that ended, or the end of the fuel. -/
def ofOption : Option α → Run α
  | some a => pure a
  | none => throw .exhausted

/-- Goes on with whatever becomes of a computation. -/
def attempt (x : Run α) : Run (Except Halt α) := fun s =>
  match x s with
  | .ok a s => .ok (.ok a) s
  | .error halt s => .ok (.error halt) s

/-- Goes on with the outcome of a computation, whether a value or an error. -/
def outcome (x : Run α) : Run (Except EvalError α) := fun s =>
  match x s with
  | .ok a s => .ok (.ok a) s
  | .error (.error e) s => .ok (.error e) s
  | .error halt s => .error halt s

/-- An early return becomes the value that it carries. -/
def catchReturn (x : Run Value) : Run Value := do
  match ← outcome x with
  | .ok v => pure v
  | .error e =>
    match e.returned? with
    | some v => pure v
    | none => throw (.error e)

def readCell (r : Ref) : Run Value := return (← get).cell r

def writeCell (r : Ref) (v : Value) : Run Unit :=
  modify fun s => { s with cells := s.cells.setIfInBounds r v }

/-- Lays new cells in a row and yields the address of the first. -/
def newCells (values : List Value) : Run Ref :=
  modifyGet fun s => (s.cells.size, { s with cells := s.cells ++ values })

/-- The frames `env` with a new one inside, its slots at the default values of their types. -/
def enter (env : Env) (layout : Layout) : Run Env := do
  let base ← newCells (layout.map fun slot => slot.type.default)
  pure (⟨layout, base⟩ :: env)

def newSequence (items : List Value) : Run Ref :=
  modifyGet fun s => (s.sequences.size, { s with sequences := s.sequences.push items })

def writeSequence (r : Ref) (items : List Value) : Run Unit :=
  modify fun s => { s with sequences := s.sequences.setIfInBounds r items }

def newList (items : List Value) : Run Value := .list <$> newSequence items

/-- An array of items that conform to the element type already. -/
def newArrayOf (elem : Ty) (items : List Value) : Run Value := .array elem <$> newSequence items

def newBuffer (chars : List Char) : Run Value :=
  modifyGet fun s => (.buffer s.buffers.size, { s with buffers := s.buffers.push chars })

def writeBuffer (r : Ref) (chars : List Char) : Run Unit :=
  modify fun s => { s with buffers := s.buffers.setIfInBounds r chars }

def newMap (entries : Entries) : Run Value :=
  modifyGet fun s => (.map s.maps.size, { s with maps := s.maps.push entries })

def writeMap (r : Ref) (entries : Entries) : Run Unit :=
  modify fun s => { s with maps := s.maps.setIfInBounds r entries }

def newFunction (info : FunctionInfo) (f : Callable) : Run Value :=
  modifyGet fun s =>
    (.function info s.functions.size, { s with functions := s.functions.push f })

def newNative (f : Native) : Run Value := newFunction f.info (.native f)

def newOperator (op : Operation) : Run Value := newFunction op.info (.operator op)

def newInstance (className : String) (members : List (String × Ty)) : Run Value := do
  let base ← newCells (members.map fun (_, type) => type.default)
  modifyGet fun s => (.object className s.objects.size,
    { s with objects := s.objects.push ⟨className, members, base⟩ })

def newRecord (fields : List Value) : Run Ref :=
  modifyGet fun s => (s.records.size, { s with records := s.records.push fields })

def writeRecord (r : Ref) (i : Nat) (v : Value) : Run Unit :=
  modify fun s => { s with records := s.records.modify r fun fields => fields.set i v }

def recordCall (call : Call) : Run Unit := modify fun s => { s with calls := call :: s.calls }

end Run

end ExprCore
