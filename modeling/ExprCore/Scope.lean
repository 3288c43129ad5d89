import ExprCore.Value

/-!
Frames and scopes. A layout declares the slots of a frame; an environment is the chain of live
frames, innermost first; a scope is the same chain as resolution sees it, each frame with its level
of function nesting.
-/

namespace ExprCore
set_option autoImplicit false

structure Slot where
  name : String
  type : Ty
  /-- A final slot is written by its declaration only. -/
  final : Bool
  deriving DecidableEq, Inhabited

abbrev Layout := List Slot

/-- The address and the declaration of a name. Of two slots with one name the later counts. -/
def Layout.lookup? (name : String) : Layout → Option (Nat × Slot)
  | [] => none
  | slot :: layout =>
    match Layout.lookup? name layout with
    | some (address, found) => some (address + 1, found)
    | none => if slot.name = name then some (0, slot) else none

/-- A live frame: its cells lie in a row in the store, from `base` on. -/
structure Frame where
  layout : Layout
  base : Ref
  deriving DecidableEq

/-- The live frames, innermost first. -/
abbrev Env := List Frame

/-- The cell at an address of the frame that lies `depth` frames out. -/
def Env.cell? (env : Env) (depth address : Nat) : Option Ref :=
  match env[depth]? with
  | none => none
  | some frame => if address < frame.layout.length then some (frame.base + address) else none

/-- What a name resolves to. -/
structure Binding where
  name : String
  address : Nat
  /-- Frames to walk out from the innermost one. -/
  depth : Nat
  /-- The level of function nesting of the declaring frame. -/
  level : Nat
  final : Bool
  type : Ty
  deriving DecidableEq, Inhabited

structure ScopeFrame where
  layout : Layout
  level : Nat
  deriving DecidableEq

/-- The frames that resolution sees, innermost first. -/
abbrev Scope := List ScopeFrame

namespace Scope

def root (layout : Layout) : Scope := [⟨layout, 0⟩]

/-- The live frames as a scope, all of them at level 0. -/
def ofEnv (env : Env) : Scope := env.map fun frame => ⟨frame.layout, 0⟩

def level : Scope → Nat
  | [] => 0
  | frame :: _ => frame.level

def block (s : Scope) (layout : Layout) : Scope := ⟨layout, s.level⟩ :: s

/-- The scope of a function body within `s`, one level deeper. -/
def function (s : Scope) (layout : Layout) : Scope := ⟨layout, s.level + 1⟩ :: s

def bind? (name : String) (frame : ScopeFrame) (depth : Nat) : Option Binding :=
  (frame.layout.lookup? name).map fun (address, slot) =>
    ⟨name, address, depth, frame.level, slot.final, slot.type⟩

/-- The innermost binding of a name, the first frame of `s` being `depth` frames out. -/
def lookupFrom? (name : String) (depth : Nat) : Scope → Option Binding
  | [] => none
  | frame :: s => (bind? name frame depth).or (lookupFrom? name (depth + 1) s)

def lookup? (s : Scope) (name : String) : Option Binding := lookupFrom? name 0 s

/-- The binding of a name in the frame `hops` frames out, and in no other. -/
def lookupAt? (s : Scope) (hops : Nat) (name : String) : Option Binding :=
  s[hops]?.bind fun frame => bind? name frame hops

end Scope

end ExprCore
