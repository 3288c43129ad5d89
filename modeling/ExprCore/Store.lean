import ExprCore.Expr

/-!
The store: everything that evaluation can change or that has an identity. Values refer to it by
address, and addresses are given out in order and never taken back.
-/

namespace ExprCore
set_option autoImplicit false

/-- An instance of an interpreted class: its members in order, with cells in a row from `base`
on. -/
structure Instance where
  className : String
  members : List (String × Ty)
  base : Ref
  deriving Inhabited

/-- The cell and the declared type of a member. Of two members with one name the later counts. -/
def Instance.member? (o : Instance) (name : String) : Option (Ref × Ty) :=
  let layout : Layout := o.members.map fun (name, type) => ⟨name, type, false⟩
  (layout.lookup? name).map fun (address, slot) => (o.base + address, slot.type)

/-- A function body bound to the frames in which it was made. -/
structure Closure where
  signature : Signature
  body : Expr
  env : Env

inductive Callable where
  | native (f : Native)
  | operator (op : Operation)
  | closure (f : Closure)

instance : Inhabited Callable := ⟨.operator .not⟩

structure Call where
  name : String
  args : List Value

structure Store where
  /-- Slots of frames and members of objects. -/
  cells : Array Value := #[]
  /-- The contents of lists and arrays. -/
  sequences : Array (List Value) := #[]
  buffers : Array (List Char) := #[]
  maps : Array Entries := #[]
  functions : Array Callable := #[]
  objects : Array Instance := #[]
  /-- The private memory of host code. -/
  records : Array (List Value) := #[]
  /-- The calls of host code so far, the latest first. -/
  calls : List Call := []
  deriving Inhabited

namespace Store

def cell (s : Store) (r : Ref) : Value := s.cells[r]?.getD .void

def items (s : Store) (r : Ref) : List Value := s.sequences[r]?.getD []

def chars (s : Store) (r : Ref) : List Char := s.buffers[r]?.getD []

def entries (s : Store) (r : Ref) : Entries := s.maps[r]?.getD []

def callable (s : Store) (r : Ref) : Callable := s.functions[r]?.getD default

def instanceAt (s : Store) (r : Ref) : Instance := s.objects[r]?.getD default

def field (s : Store) (record : Ref) (i : Nat) : Value :=
  (s.records[record]?.getD [])[i]?.getD .null

def content? (s : Store) : Value → Option Content
  | .list r | .array _ r => some (.items (s.items r))
  | .buffer r => some (.chars (s.chars r))
  | .map r => some (.entries (s.entries r))
  | _ => none

end Store

end ExprCore
