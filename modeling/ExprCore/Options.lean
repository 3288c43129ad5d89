import ExprCore.Numeral
import ExprCore.Text.Blank

/-!
How trees are prepared before they run.
-/

namespace ExprCore
set_option autoImplicit false

structure Options where
  /-- The effort of the optimizer; 0 leaves trees alone. -/
  optimization : Nat
  /-- The levels of function nesting across which the first resolution may bind a name. -/
  linkLevel : Nat
  deriving DecidableEq

namespace Options

def default : Options := ⟨1, 0⟩

instance : Inhabited Options := ⟨default⟩

/-- Reads a setting, a number below `bound` between optional blanks. -/
def readSetting (bound : Nat) (text : String) : Option Nat :=
  Numeral.natBelow? bound (Text.trim text.toList)

/-- The options with the given settings in place of their own. A setting that cannot be read is
passed over. -/
def override (o : Options) (optimization linkLevel : Option String) : Options where
  optimization := (optimization.bind (readSetting 0x100)).getD o.optimization
  linkLevel := (linkLevel.bind (readSetting 0x100000000)).getD o.linkLevel

end Options

end ExprCore
