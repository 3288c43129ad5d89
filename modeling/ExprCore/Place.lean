import ExprCore.Indexable
import ExprCore.Machine

/-!
Places: what an assignment writes to. A target is turned into a place once, and reads and writes go
through the place without another look at the target.
-/

namespace ExprCore
set_option autoImplicit false

inductive Place where
  | cell (ref : Ref) (name : String) (type : Ty) (final : Bool)
  | element (container : Indexable) (key : Value)
  | hostField (className : String) (object : Ref) (field : String)
  | staticField (className field : String)

namespace Machine

def missingSlot (b : Binding) : EvalError :=
  (EvalError.of (.undefinedVariable b.name)).withNote
    ("no slot " ++ toString b.address ++ " at depth " ++ toString b.depth)

def cellOf (env : Env) (b : Binding) : Run Ref :=
  match env.cell? b.depth b.address with
  | some r => pure r
  | none => throw (.error (missingSlot b))

def memberPlace (kind : MemberKind) (v : Value) (name : String) : Run Place := do
  match kind, v with
  | .hostField, .host className r => pure (.hostField className r name)
  | .hostField, .null => Run.fail (.nullReference "field access")
  | .mapEntry, .map r => pure (.element (.map r) (.str name))
  | .mapEntry, .null | .classMember, .null => Run.fail (.nullReference "member access")
  | .classMember, .object className r =>
    match ((← get).instanceAt r).member? name with
    | some (cell, type) => pure (.cell cell name type false)
    | none => Run.fail (.noSuchMember name className)
  | _, v => Run.fail (.noSuchMember name v.typeName)

/-- Evaluates what a target is made of, once, and yields its place. -/
def place (m : Machine) (env : Env) (target : Expr) : Run Place := do
  match target with
  | .var b => pure (.cell (← cellOf env b) b.name b.type b.final)
  | .index base index =>
    let v ← m.eval env base
    let key ← m.eval env index
    pure (.element (← Run.ofExcept (Indexable.ofValue v)) key)
  | .member kind object name => memberPlace kind (← m.eval env object) name
  | .staticField className field => pure (.staticField className field)
  | .name name => Run.fail (.undefinedVariable name)
  | _ => Run.fail .invalidAssignmentTarget

def read (m : Machine) (p : Place) : Run Value := do
  match p with
  | .cell r .. => Run.readCell r
  | .element container key => Run.ofExcept (container.get (← get) key)
  | .hostField className object field =>
    m.dispatch (className ++ "." ++ field) ((m.host className).getField object field)
  | .staticField className field =>
    m.dispatch (className ++ "." ++ field) ((m.host className).getStatic field)

/-- Stores a value, cast to the type of the place, and yields what was stored. -/
def store (m : Machine) (p : Place) (v : Value) : Run Value := do
  match p with
  | .cell r name type _ =>
    let w ← Run.ofExcept (type.castNoting ("assignment to `" ++ name ++ "`") v)
    Run.writeCell r w
    pure w
  | .element container key => container.set key v
  | .hostField className object field =>
    m.dispatch (className ++ "." ++ field) ((m.host className).setField object field v)
    pure v
  | .staticField className field =>
    m.dispatch (className ++ "." ++ field) ((m.host className).setStatic field v)
    pure v

/-- Assigns a value. A final slot refuses it. -/
def write (m : Machine) (p : Place) (v : Value) : Run Value :=
  match p with
  | .cell _ name _ true => Run.fail (.immutableBinding name)
  | p => m.store p v

/-- Writes a value by assignment, or as the first write of a slot. -/
def writeAs (m : Machine) (mode : AssignMode) (p : Place) (v : Value) : Run Value :=
  match mode with
  | .assign => m.write p v
  | .declare => m.store p v

end Machine

end ExprCore
