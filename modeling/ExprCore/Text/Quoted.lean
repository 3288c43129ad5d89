import ExprCore.Text.Extending
import ExprCore.Text.Unprinted

/-!
Quoted text, as the dump of a value shows strings and characters: control characters and
characters without a printed form of their own are written as escapes.
-/

namespace ExprCore.Text
set_option autoImplicit false

/-- Characters that would not show, or only on the character before them. -/
def isHidden (c : Char) : Bool := isUnprinted c || isExtending c

theorem isHidden_eq_false_of_ascii {c : Char} (hfirst : 0x20 ≤ c.toNat)
    (hlast : c.toNat ≤ 0x7e) : isHidden c = false := by
  have hu : isUnprinted c = false := CodeRanges.contains_eq_false (by decide +kernel) hfirst hlast
  have he : isExtending c = false := CodeRanges.contains_eq_false (by decide +kernel) hfirst hlast
  simp [isHidden, hu, he]

def hex (n : Nat) : String := String.ofList (Nat.toDigits 16 n)

/-- One character between quotes of the kind `quote`. -/
def escape (quote c : Char) : String :=
  if c = quote || c = '\\' then String.ofList ['\\', c]
  else if c = '\t' then "\\t"
  else if c = '\r' then "\\r"
  else if c = '\n' then "\\n"
  else if c = '\x00' then "\\0"
  else if isHidden c then "\\u\x7b" ++ hex c.toNat ++ "\x7d"
  else String.singleton c

def quoted (s : String) : String :=
  "\"" ++ String.join (s.toList.map (escape '"')) ++ "\""

def quotedChar (c : Char) : String := "'" ++ escape '\'' c ++ "'"

end ExprCore.Text
