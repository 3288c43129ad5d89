import ExprCore.Host.Action

/-!
Host classes that every program finds: points with an integer position and a tag, vaults that show
nothing, and a class whose constructor yields something that is no instance of it.
-/

namespace ExprCore
set_option autoImplicit false

namespace HostClass

def blank (className : String) : HostClass where
  construct args := .fail (.noSuchConstructor className (Value.signature args))
  getStatic field := .fail (.noSuchField className field)
  setStatic field _ := .fail (.noSuchField className field)
  invokeStatic method args := .fail (.noSuchMethod className method (Value.signature args))
  getField _ field := .fail (.noSuchField className field)
  setField _ field _ := .fail (.noSuchField className field)
  invokeMethod _ method args := .fail (.noSuchMethod className method (Value.signature args))

end HostClass

namespace Point

/-- The record of a point holds its position and its tag. -/
def instanceFields (x y : Int32) : List Value := [.int x, .int y, .null]

def make (x y : Int32) : HostAction HostFault Value :=
  .newRecord (instanceFields x y) fun r => .done (.host "Point" r)

def readInt (record : Ref) (i : Nat) : HostAction HostFault Int32 := do
  match ← HostProgram.read record i with
  | .int n => pure n
  | _ => pure 0

def countOne (statics : Ref) : HostAction HostFault Unit := do
  match ← HostProgram.read statics 0 with
  | .long n => HostProgram.write statics 0 (.long (n + 1))
  | _ => pure ()

def construct (statics : Ref) : List Value → HostAction HostFault Value
  | [.int x] => do
    countOne statics
    make x 0
  | [.int x, .int y] => do
    countOne statics
    make x y
  | [.str message] => .fail (.targetThrew "Point" "new" message)
  | args => .fail (.noSuchConstructor "Point" (Value.signature args))

def getStatic (statics : Ref) : String → HostAction HostFault Value
  | "created" => HostProgram.read statics 0
  | "mode" => HostProgram.read statics 1
  | "secret" => .fail (.illegalAccess "Point" "secret")
  | field => .fail (.noSuchField "Point" field)

def setStatic (statics : Ref) (field : String) (v : Value) : HostAction HostFault Unit :=
  match field with
  | "mode" => HostProgram.write statics 1 v
  | "created" | "secret" => .fail (.illegalAccess "Point" field)
  | _ => .fail (.noSuchField "Point" field)

def invokeStatic (method : String) (args : List Value) : HostAction HostFault Value :=
  match method, args with
  | "origin", [] => make 0 0
  | "max", [.int m, .int n] => .done (.int (if m < n then n else m))
  | "fail", [.str message] => .fail (.targetThrew "Point" "fail" message)
  | _, _ => .fail (.noSuchMethod "Point" method (Value.signature args))

def getField (r : Ref) : String → HostAction HostFault Value
  | "x" => HostProgram.read r 0
  | "y" => HostProgram.read r 1
  | "tag" => HostProgram.read r 2
  | "secret" => .fail (.illegalAccess "Point" "secret")
  | field => .fail (.noSuchField "Point" field)

def setField (r : Ref) (field : String) (v : Value) : HostAction HostFault Unit :=
  match field, v with
  | "x", .int n => HostProgram.write r 0 (.int n)
  | "y", .int n => HostProgram.write r 1 (.int n)
  | "tag", v => HostProgram.write r 2 v
  | "x", _ | "y", _ | "secret", _ => .fail (.illegalAccess "Point" field)
  | _, _ => .fail (.noSuchField "Point" field)

def invokeMethod (r : Ref) (method : String) (args : List Value) : HostAction HostFault Value :=
  match method, args with
  | "sum", [] => do pure (.long ((← readInt r 0).toInt64 + (← readInt r 1).toInt64))
  | "nothing", [] => .done .void
  | "scale", [.int k] => do pure (.int ((← readInt r 0) * k))
  | "echo", args => .perform (.newList args) fun
    | .ok v => .done v
    | .error e => .fail (.targetThrew "Point" "echo" e.message)
  | "move", [.int x, .int y] => do
    HostProgram.write r 0 (.int x)
    HostProgram.write r 1 (.int y)
    pure .null
  | "fail", [.str message] => .fail (.targetThrew "Point" "fail" message)
  | _, _ => .fail (.noSuchMethod "Point" method (Value.signature args))

/-- The class of points, with the record of the class. -/
def hostClass (statics : Ref) : HostClass where
  construct := construct statics
  getStatic := getStatic statics
  setStatic := setStatic statics
  invokeStatic := invokeStatic
  getField := getField
  setField := setField
  invokeMethod := invokeMethod

end Point

/-- A class that can be constructed without arguments and has no members. -/
def vaultClass : HostClass :=
  { HostClass.blank "Vault" with
    construct := fun
      | [] => .newRecord [] fun r => .done (.host "Vault" r)
      | args => .fail (.noSuchConstructor "Vault" (Value.signature args)) }

/-- A class whose constructor takes anything and yields a number. -/
def liarClass : HostClass :=
  { HostClass.blank "Liar" with construct := fun _ => .done (.int 7) }

/-- The host with these classes, where `statics` is the record of the class of points. -/
def standardHost (statics : Ref) : Host
  | "Point" => Point.hostClass statics
  | "Vault" => vaultClass
  | "Liar" => liarClass
  | className => .blank className

end ExprCore
