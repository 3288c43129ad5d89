import ExprCore.Proofs.Likeness.Calls
import ExprCore.Proofs.Likeness.Computing

/-!
Places side by side: two targets whose parts evaluate alike denote the same place, up to links, and
reads and writes of such places are alike.
-/

namespace ExprCore
set_option autoImplicit false

open Correspondence (Runs)

namespace Pairing

variable {P : Pairing} {w : World P.known} {m : Machine} {m' : Nat → Machine} {env : Env}
  {e e' a a' b b' : Expr} {es es' : List Expr} {v v' key key' : Value}

abbrev Steps (P : Pairing) (w : World P.known) (m : Machine) (m' : Nat → Machine) (env : Env)
    (e e' : Expr) : Prop :=
  P.correspondence.Steps w m m' env env e e'

/-- Places that stand for each other. A cell has the type of the place. -/
inductive Places (w : World P.known) : Place → Place → Prop where
  | cell {r : Ref} {t : Ty} (name : String) (final : Bool) (ht : w.cells[r]? = some t) :
    Places w (.cell r name t final) (.cell r name t final)
  | element {c c' : Indexable} {key key' : Value} (hc : Indexable.Like w.links c c')
    (hk : Value.Like w.links key key') : Places w (.element c key) (.element c' key')
  | hostField (className : String) (object : Ref) (field : String) :
    Places w (.hostField className object field) (.hostField className object field)
  | staticField (className field : String) :
    Places w (.staticField className field) (.staticField className field)

theorem Places.mono {w' : World P.known} (hw : w ≤ w') {p p' : Place} (h : Places w p p') :
    Places w' p p' := by
  cases h with
  | cell name final ht => exact .cell name final (World.cell_of_le hw ht)
  | element hc hv => exact .element (hc.mono hw.1) (hv.mono hw.1)
  | hostField => exact .hostField ..
  | staticField => exact .staticField ..

variable {p p' : Place}

end Pairing

end ExprCore
