import ExprCore.Value

/-!
The entries of a map.
-/

namespace ExprCore
set_option autoImplicit false

/-- The entries of a map, sorted by key and each key once. -/
abbrev Entries := List (String × Value)

namespace Entries

def get (key : String) : Entries → Value
  | [] => .null
  | (k, v) :: entries => if k = key then v else get key entries

def insert (key : String) (value : Value) : Entries → Entries
  | [] => [(key, value)]
  | (k, v) :: entries =>
    if k = key then (key, value) :: entries
    else if key < k then (key, value) :: (k, v) :: entries
    else (k, v) :: insert key value entries

@[simp] theorem get_insert_self (key : String) (v : Value) (entries : Entries) :
    (entries.insert key v).get key = v := by
  induction entries with
  | nil => simp [insert, get]
  | cons entry entries ih =>
    rcases entry with ⟨k, w⟩
    by_cases hk : k = key
    · simp [insert, get, hk]
    · by_cases hlt : key < k
      · simp [insert, get, hk, hlt]
      · simp [insert, get, hk, hlt, ih]

theorem get_insert_of_ne {key other : String} (h : other ≠ key) (v : Value) (entries : Entries) :
    (entries.insert key v).get other = entries.get other := by
  induction entries with
  | nil => simp [insert, get, h.symm]
  | cons entry entries ih =>
    rcases entry with ⟨k, w⟩
    by_cases hk : k = key
    · subst hk
      simp [insert, get, h.symm]
    · by_cases hlt : key < k
      · simp [insert, get, hk, hlt, h.symm]
      · simp [insert, get, hk, hlt, ih]

def insertAll (entries : Entries) (more : List (String × Value)) : Entries :=
  more.foldl (fun entries (k, v) => entries.insert k v) entries

end Entries

end ExprCore
