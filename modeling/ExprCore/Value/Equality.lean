import ExprCore.Store

/-!
Equality of values: containers are compared by their contents, functions and objects by identity.
A container equals itself without a look at its contents.
-/

namespace ExprCore.Value
set_option autoImplicit false

def equalItems (equal : Value → Value → Option Bool) : List Value → List Value → Option Bool
  | a :: as, b :: bs =>
    match equal a b with
    | some true => equalItems equal as bs
    | r => r
  | _, _ => some true

/-- Compares the entries of one map with those that another has at the same keys. -/
def equalEntries (equal : Value → Value → Option Bool) (other : Entries) :
    Entries → Option Bool
  | [] => some true
  | (key, v) :: entries =>
    match other.lookup key with
    | none => some false
    | some w =>
      match equal v w with
      | some true => equalEntries equal other entries
      | r => r

/-- Whether two values are equal; none if the fuel does not suffice to tell. -/
def equal (s : Store) : Nat → Value → Value → Option Bool
  | 0, _, _ => none
  | n + 1, v, w =>
    let sequences (q r : Ref) : Option Bool :=
      if q = r then some true
      else if (s.items q).length = (s.items r).length then
        equalItems (equal s n) (s.items q) (s.items r)
      else some false
    match v, w with
    | .void, .void | .null, .null => some true
    | .bool a, .bool b => some (a == b)
    | .char a, .char b => some (a == b)
    | .int a, .int b => some (a == b)
    | .long a, .long b => some (a == b)
    | .double a, .double b => some (a == b)
    | .str a, .str b => some (a == b)
    | .buffer q, .buffer r => some (decide (q = r) || s.chars q == s.chars r)
    | .list q, .list r => sequences q r
    | .array a q, .array b r =>
      if q = r then some true else if a = b then sequences q r else some false
    | .map q, .map r =>
      if q = r then some true
      else if (s.entries q).length = (s.entries r).length then
        equalEntries (equal s n) (s.entries r) (s.entries q)
      else some false
    | .function _ q, .function _ r => some (decide (q = r))
    | .object _ q, .object _ r => some (decide (q = r))
    | .host _ q, .host _ r => some (decide (q = r))
    | _, _ => some false

end ExprCore.Value
