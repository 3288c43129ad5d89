import ExprCore.Indexable
import ExprCore.Value.Display
import ExprCore.Value.Equality

/-!
What host code does to values, as computations on the store. Texts and comparisons of containers walk
them and need fuel.
-/

namespace ExprCore
set_option autoImplicit false

namespace Run

def memberCell (object : Ref) (name : String) : Run (Ref × Ty) := do
  let o := (← get).instanceAt object
  match o.member? name with
  | some member => pure member
  | none => fail (.noSuchMember name o.className)

end Run

/-- An operation on values. Whatever writes a container yields it. -/
def HostOp.run (fuel : Nat) : HostOp → Run Value
  | .newList items => Run.newList items
  | .newArray elem items => do Run.newArrayOf elem (← Run.ofExcept (items.mapM elem.cast))
  | .newBuffer chars => Run.newBuffer chars
  | .newMap entries => Run.newMap (Entries.insertAll [] entries)
  | .newObject className members => Run.newInstance className members
  | .newOperator op => Run.newOperator (.builtIn op)
  | .writeList r items => do
    Run.writeSequence r items
    pure (.list r)
  | .writeElement elem r i v => Indexable.storeInArray elem r i v
  | .writeBuffer r chars => do
    Run.writeBuffer r chars
    pure (.buffer r)
  | .writeMap r entries => do
    Run.writeMap r (Entries.insertAll [] entries)
    pure (.map r)
  | .readMember r name => do
    let (cell, _) ← Run.memberCell r name
    Run.readCell cell
  | .writeMember r name v => do
    let (cell, type) ← Run.memberCell r name
    let w ← Run.ofExcept (type.cast v)
    Run.writeCell cell w
    pure w
  | .display v => do pure (.str (← Run.ofOption (v.display (← get) fuel)))
  | .equal v w => do pure (.bool (← Run.ofOption (Value.equal (← get) fuel v w)))

end ExprCore
