import ExprCore.Double.Shape

/-!
The shortest decimal text of a floating-point number: the fewest digits that read back as the same
number, and of those the nearest to it.
-/

namespace ExprCore.Double
set_option autoImplicit false

/-- The number `digits * 10 ^ exponent`. -/
structure Decimal where
  digits : Nat
  exponent : Int

/-- The largest `k` with `10 ^ k ≤ m * 2 ^ e`, for a positive `m`. -/
def leadingPower (m : Nat) (e : Int) : Int :=
  let guess := ((m.log2 : Int) + e) * 30103 / 100000
  let next := guess + 1
  if Nat.pow 10 next.toNat <<< (-e).toNat ≤ m <<< e.toNat * Nat.pow 10 (-next).toNat then next
  else guess

/-- The multiple of `10 ^ k` that reads back as `m * 2 ^ e`, if there is one. Of two such multiples
the nearer is taken, and of two equally near the larger. -/
def onGrid (m : Nat) (e : Int) (k : Int) : Option Decimal :=
  -- all bounds in units of a quarter of the last place
  let scale := Nat.pow 10 (-k).toNat <<< (e - 2).toNat
  let step := Nat.pow 10 k.toNat <<< (2 - e).toNat
  let exact := 4 * m * scale
  let low := (4 * m - if m = 0x10000000000000 && -1074 < e then 1 else 2) * scale
  let high := (4 * m + 2) * scale
  let readsBack (n : Nat) : Bool :=
    if m % 2 = 0 then low ≤ n && n ≤ high else low < n && n < high
  let below := exact / step
  let above := below + 1
  match readsBack (below * step), readsBack (above * step) with
  | true, true =>
    some ⟨if exact - below * step < above * step - exact then below else above, k⟩
  | true, false => some ⟨below, k⟩
  | false, true => some ⟨above, k⟩
  | false, false => none

/-- The fewest digits that read back as `m * 2 ^ e`, for a positive `m`. Seventeen are enough. -/
def shortest (m : Nat) (e : Int) : Decimal :=
  let top := leadingPower m e
  ((List.range 17).findSome? fun (n : Nat) => onGrid m e (top - n)).getD ⟨0, 0⟩

def significant (n : Nat) : List Char :=
  ((Nat.toDigits 10 n).reverse.dropWhile (· = '0')).reverse

/-- Numbers from `10 ^ -4` to below `10 ^ 16` are written with a point and at least one decimal,
all others with one digit before the point and an exponent. -/
def layout (d : Decimal) : String :=
  let digits := significant d.digits
  let leading := d.exponent + (Nat.toDigits 10 d.digits).length - 1
  let text :=
    if leading < -4 || 16 ≤ leading then
      digits.take 1 ++ (if digits.length ≤ 1 then [] else '.' :: digits.drop 1) ++
        'e' :: (toString leading).toList
    else if leading < 0 then
      '0' :: '.' :: List.replicate (-leading - 1).toNat '0' ++ digits
    else
      let whole := (leading + 1).toNat
      let fraction := digits.drop whole
      digits.take whole ++ List.replicate (whole - digits.length) '0' ++
        '.' :: (if fraction.isEmpty then ['0'] else fraction)
  String.ofList text

def text (x : Float) : String :=
  match shape x with
  | .nan => "NaN"
  | .infinite negative => if negative then "-inf" else "inf"
  | .finite negative m e =>
    (if negative then "-" else "") ++ if m = 0 then "0.0" else layout (shortest m e)

end ExprCore.Double
