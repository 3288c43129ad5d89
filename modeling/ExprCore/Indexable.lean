import ExprCore.Coerce
import ExprCore.Run

/-!
Containers that can be indexed: strings, character buffers, lists, arrays and maps.
-/

namespace ExprCore
set_option autoImplicit false

inductive Indexable where
  | text (s : String)
  | buffer (ref : Ref)
  | list (ref : Ref)
  | array (elem : Ty) (ref : Ref)
  | map (ref : Ref)

namespace Indexable

def ofValue : Value → Except EvalError Indexable
  | .str s => .ok (.text s)
  | .buffer r => .ok (.buffer r)
  | .list r => .ok (.list r)
  | .array elem r => .ok (.array elem r)
  | .map r => .ok (.map r)
  | .null => .error (.of (.nullReference "indexing"))
  | v => .error (.of (.cannotIndex v.typeName))

def length (s : Store) : Indexable → Nat
  | .text t => t.length
  | .buffer r => (s.chars r).length
  | .list r | .array _ r => (s.items r).length
  | .map r => (s.entries r).length

def mapKey : Value → Except EvalError String
  | .str key => .ok key
  | v => .error (.of (.mapKeysMustBeStrings v.typeName))

/-- The position that a key names among `length` elements. -/
def position (key : Value) (length : Nat) : Except EvalError Nat := do
  let i ← key.toInt
  if 0 ≤ i ∧ i < length then .ok i.toNat else .error (.of (.indexOutOfBounds i length))

def element {α : Type} (items : List α) (key : Value) : Except EvalError α := do
  let i ← position key items.length
  match items[i]? with
  | some item => .ok item
  | none => .error (.of (.indexOutOfBounds i items.length))

/-- Reads the element at a key. A key that a map does not have reads as null. -/
def get (s : Store) (c : Indexable) (key : Value) : Except EvalError Value :=
  match c with
  | .text t => (element t.toList key).map .char
  | .buffer r => (element (s.chars r) key).map .char
  | .list r | .array _ r => element (s.items r) key
  | .map r => (mapKey key).map fun k => (s.entries r).get k

def storeInArray (elem : Ty) (r : Ref) (i : Nat) (v : Value) : Run Value := do
  let v ← Run.ofExcept (elem.cast v)
  let items := (← MonadState.get).items r
  if i < items.length then
    Run.writeSequence r (items.set i v)
    pure v
  else Run.fail (.indexOutOfBounds i items.length)

/-- Stores a value at a key and yields what was stored. Buffers take characters, and arrays take
what casts to their element type. -/
def set (c : Indexable) (key v : Value) : Run Value := do
  match c with
  | .text _ => Run.fail (.cannotAssignIndex "String")
  | .buffer r =>
    match ← Run.ofExcept (Ty.char.cast v) with
    | .char ch =>
      let chars := (← MonadState.get).chars r
      let i ← Run.ofExcept (position key chars.length)
      Run.writeBuffer r (chars.set i ch)
      pure (.char ch)
    | w => Run.fail (.typeMismatch "char" w.typeName)
  | .list r =>
    let items := (← MonadState.get).items r
    let i ← Run.ofExcept (position key items.length)
    Run.writeSequence r (items.set i v)
    pure v
  | .array elem r =>
    let i ← Run.ofExcept (position key ((← MonadState.get).items r).length)
    storeInArray elem r i v
  | .map r =>
    let k ← Run.ofExcept (mapKey key)
    Run.writeMap r (((← MonadState.get).entries r).insert k v)
    pure v

/-- The bounds of a slice of `length` elements. A lower bound above the upper one stands for
everything from it on. -/
def bounds (lo hi : Int) (length : Nat) : Except EvalError (Nat × Nat) :=
  if ¬(0 ≤ lo ∧ lo ≤ length) then .error (.of (.indexOutOfBounds lo length))
  else if hi < lo then .ok (lo.toNat, length)
  else if hi ≤ length then .ok (lo.toNat, hi.toNat)
  else .error (.of (.indexOutOfBounds hi length))

def between {α : Type} (items : List α) (lo hi : Int) : Except EvalError (List α) :=
  (bounds lo hi items.length).map fun (start, stop) => (items.take stop).drop start

/-- A slice, in new storage: of text and buffers a string, of lists and arrays a container of the
same kind. -/
def slice (c : Indexable) (lo hi : Int) : Run Value := do
  let s ← MonadState.get
  match c with
  | .text t =>
    let chars ← Run.ofExcept (between t.toList lo hi)
    pure (.str (String.ofList chars))
  | .buffer r =>
    let chars ← Run.ofExcept (between (s.chars r) lo hi)
    pure (.str (String.ofList chars))
  | .list r => Run.newList (← Run.ofExcept (between (s.items r) lo hi))
  | .array elem r =>
    let items ← Run.ofExcept (between (s.items r) lo hi)
    Run.newArrayOf elem (← Run.ofExcept (items.mapM elem.cast))
  | .map _ => Run.fail (.cannotIndex "Map with a range")

end Indexable

end ExprCore
