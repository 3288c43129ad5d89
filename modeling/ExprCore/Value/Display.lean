import ExprCore.Double.Shortest
import ExprCore.Store
import ExprCore.Text.Quoted

/-!
The text of a value, as programs see it when they join it to a string, and its dump, which shows the
constructor of every part. Both walks follow references, so they run on fuel: a container that
reaches itself has no text, whatever the fuel.
-/

namespace ExprCore.Value
set_option autoImplicit false

def bracketed (texts : List String) : String := "[" ++ ", ".intercalate texts ++ "]"

def braced (texts : List String) : String := "\x7b" ++ ", ".intercalate texts ++ "\x7d"

/-- The texts of map entries, where `text` is that of a value. -/
def entryTexts (text : Value → Option String) (entry : String → String → String) :
    Entries → Option (List String)
  | [] => some []
  | (key, v) :: entries => do
    let t ← text v
    pure (entry key t :: (← entryTexts text entry entries))

/-- The texts of several values, where `text` is that of one. -/
def textsWith (text : Value → Option String) : List Value → Option (List String)
  | [] => some []
  | v :: vs => do
    let t ← text v
    pure (t :: (← textsWith text vs))

/-- The text of a value. Entries of maps are ordered by key. -/
def display (s : Store) : Nat → Value → Option String
  | 0, _ => none
  | n + 1, v =>
    match v with
    | .void => some "void"
    | .null => some "null"
    | .bool b => some (if b then "true" else "false")
    | .char c => some (String.singleton c)
    | .int k => some (toString k.toInt)
    | .long k => some (toString k.toInt)
    | .double x => some (Double.text x)
    | .str t => some t
    | .buffer r => some (String.ofList (s.chars r))
    | .list r | .array _ r => (textsWith (display s n) (s.items r)).map bracketed
    | .map r =>
      (entryTexts (display s n) (fun key t => key ++ "=" ++ t) (s.entries r)).map braced
    | .function info _ => some ("<fn " ++ info.name ++ ">")
    | .object className _ => some ("<" ++ className ++ " instance>")
    | .host className _ => some ("<" ++ className ++ ">")

end ExprCore.Value

namespace ExprCore

def Ty.dump : Ty → String
  | .void => "Void"
  | .null => "Null"
  | .bool => "Bool"
  | .char => "Char"
  | .int => "Int"
  | .long => "Long"
  | .double => "Double"
  | .str => "Str"
  | .buffer => "CharBuffer"
  | .list elem => "List(" ++ elem.dump ++ ")"
  | .array elem => "Array(" ++ elem.dump ++ ")"
  | .map value => "Map(" ++ value.dump ++ ")"
  | .function ret => "Function(" ++ ret.dump ++ ")"
  | .object => "Object"
  | .host className => "Host(Name(" ++ Text.quoted className ++ "))"
  | .any => "Any"

namespace Value

def dump (s : Store) : Nat → Value → Option String
  | 0, _ => none
  | n + 1, v =>
    match v with
    | .void => some "Void"
    | .null => some "Null"
    | .bool b => some (if b then "Bool(true)" else "Bool(false)")
    | .char c => some ("Char(" ++ Text.quotedChar c ++ ")")
    | .int k => some ("Int(" ++ toString k.toInt ++ ")")
    | .long k => some ("Long(" ++ toString k.toInt ++ ")")
    | .double x => some ("Double(" ++ Double.text x ++ ")")
    | .str t => some ("Str(" ++ Text.quoted t ++ ")")
    | .buffer r => some ("CharBuffer(" ++ Text.quoted (String.ofList (s.chars r)) ++ ")")
    | .list r => (textsWith (dump s n) (s.items r)).map fun texts =>
        "List(" ++ bracketed texts ++ ")"
    | .array elem r => (textsWith (dump s n) (s.items r)).map fun texts =>
        "Array \x7b elem: " ++ elem.dump ++ ", items: " ++ bracketed texts ++ " \x7d"
    | .map r =>
      (entryTexts (dump s n) (fun key t => Text.quoted key ++ ": " ++ t) (s.entries r)).map
        fun texts => "Map(" ++ braced texts ++ ")"
    | .function info _ => some ("Function(" ++ info.name ++ ")")
    | .object className _ => some ("Object(" ++ className ++ ")")
    | .host className _ => some ("Host(" ++ className ++ ")")

end Value

/-- The dump of live frames, innermost first: each slot with the value in its cell. -/
def Env.dump (s : Store) (fuel : Nat) : Env → Option String
  | [] => some ""
  | frame :: env => do
    let slots ← frame.layout.mapIdx (fun i slot => (slot.name, frame.base + i)) |>.mapM
      fun (name, r) => do
        let t ← (s.cell r).dump s fuel
        pure ("Name(" ++ Text.quoted name ++ "): Variable(" ++ t ++ ")")
    let inner := Value.braced slots
    if env.isEmpty then pure inner else pure (inner ++ " <- " ++ (← Env.dump s fuel env))

/-- The dump of a scope, innermost frame first: each level with the names declared at it. -/
def Scope.dump (s : Scope) : String :=
  Value.bracketed <| s.map fun frame =>
    let names := frame.layout.map fun slot => "Name(" ++ Text.quoted slot.name ++ ")"
    "(" ++ toString frame.level ++ ", " ++ Value.bracketed names ++ ")"

end ExprCore
