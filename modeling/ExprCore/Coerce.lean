import ExprCore.Cast
import ExprCore.Numeral
import ExprCore.Store
import ExprCore.Text.Blank

/-!
The truth of a value and its reading as a number.
-/

namespace ExprCore.Value
set_option autoImplicit false

/-- The truth of a value, as conditions take it: false are `void`, null, zero, the character with
code 0, and whatever is empty. -/
def truth (s : Store) : Value → Bool
  | .void | .null => false
  | .bool b => b
  | .char c => c != '\x00'
  | .int n => n != 0
  | .long n => n != 0
  | .double x => x != 0.0
  | .str t => t != ""
  | .buffer r => !(s.chars r).isEmpty
  | .list r | .array _ r => !(s.items r).isEmpty
  | .map r => !(s.entries r).isEmpty
  | .function .. | .object .. | .host .. => true

def toInt (v : Value) : Except EvalError Int :=
  match v.truncated? with
  | some n => .ok n
  | none => .error (.typeMismatch "integral number" v.typeName)

/-- Reads a number from text between optional blanks: an integer of the smallest type that holds
it, or a floating-point number. -/
def ofNumeral? (text : String) : Option Value :=
  let s := Text.trim text.toList
  match (Numeral.int? s).bind fun n => (int? n).or (long? n) with
  | some v => some v
  | none => (Numeral.double? s).map .double

/-- The number in a value. The lax reading also takes truth values, as 0 and 1, and numerals in
strings. -/
def toNumber (v : Value) (strict : Bool) : Except EvalError Value :=
  match v, strict with
  | .int n, _ => .ok (.int n)
  | .long n, _ => .ok (.long n)
  | .double x, _ => .ok (.double x)
  | .char c, _ => .ok (.int (Int32.ofNat c.toNat))
  | .bool b, false => .ok (.int (if b then 1 else 0))
  | .str t, false =>
    match ofNumeral? t with
    | some n => .ok n
    | none => .error (.typeMismatch "number" ("\"" ++ t ++ "\""))
  | v, _ => .error (.typeMismatch "number" v.typeName)

end ExprCore.Value
