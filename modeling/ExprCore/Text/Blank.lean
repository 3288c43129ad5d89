/-!
Blank characters: the Unicode property `White_Space`, and text without the blanks at its ends.
-/

namespace ExprCore.Text
set_option autoImplicit false

/-- Membership in the Unicode property `White_Space`, which has 25 characters. -/
def isBlank (c : Char) : Bool :=
  let n := c.toNat
  (9 ≤ n && n ≤ 13) || n == 0x20 || n == 0x85 || n == 0xA0 || n == 0x1680 ||
    (0x2000 ≤ n && n ≤ 0x200A) || n == 0x2028 || n == 0x2029 || n == 0x202F || n == 0x205F ||
    n == 0x3000

def trim (s : List Char) : List Char :=
  ((s.dropWhile isBlank).reverse.dropWhile isBlank).reverse

end ExprCore.Text
