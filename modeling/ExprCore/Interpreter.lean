import ExprCore.Optimize
import ExprCore.Options

/-!
Trees that run against one frame of globals: they are resolved against it, simplified and
evaluated.
-/

namespace ExprCore
set_option autoImplicit false

structure Global where
  slot : Slot
  value : Value

namespace Global

def ofFunction (info : FunctionInfo) (f : Ref) : Global :=
  ⟨⟨info.name, .function info.ret, true⟩, .function info f⟩

end Global

structure Interpreter where
  options : Options
  /-- One frame. -/
  globals : Env

namespace Interpreter

/-- Casts a value to the type of the slot that its name stands for, and stores it there. -/
def initializeGlobal (env : Env) (layout : Layout) (g : Global) : Run Unit := do
  match layout.lookup? g.slot.name with
  | none => pure ()
  | some (address, slot) =>
    let note := "initial value of global `" ++ g.slot.name ++ "`"
    let v ← Run.ofExcept (slot.type.castNoting note g.value)
    match env.cell? 0 address with
    | none => pure ()
    | some r => Run.writeCell r v

def initializeAll (env : Env) (layout : Layout) : List Global → Run Unit
  | [] => pure ()
  | g :: globals => do
    initializeGlobal env layout g
    initializeAll env layout globals

/-- Makes the frame of globals. A name that is declared twice stands for its later slot. -/
def build (options : Options) (globals : List Global) : Run Interpreter := do
  let layout := globals.map Global.slot
  let env ← Run.enter [] layout
  initializeAll env layout globals
  pure ⟨options, env⟩

def scope (i : Interpreter) : Scope := .ofEnv i.globals

def global? (i : Interpreter) (name : String) : Option Ref := do
  let frame ← i.globals.head?
  let (address, _) ← frame.layout.lookup? name
  i.globals.cell? 0 address

def prepare (i : Interpreter) (host : Host) (fuel : Nat) (s : Store) (e : Expr) :
    Revised Expr := do
  let resolved ← e.resolve i.options.linkLevel i.scope
  resolved.optimize host fuel i.options.optimization s

/-- Evaluates a prepared tree. An early return outside all blocks yields its value. -/
def eval (i : Interpreter) (host : Host) (fuel : Nat) (e : Expr) : Run Value :=
  Run.catchReturn (ExprCore.eval host fuel i.globals e)

def run (i : Interpreter) (host : Host) (fuel : Nat) (e : Expr) : Run Value := do
  i.eval host fuel (i.prepare host fuel (← get) e).value

end Interpreter

end ExprCore
