/-!
Interning of strings. Each string gets a 32-bit name: the upper four bits number one of sixteen
shards, chosen by the first bytes of the string, and the other bits number the string within it.
-/

namespace ExprCore
set_option autoImplicit false

/-- The handle of an interned string. -/
structure Name where
  raw : UInt32
  deriving DecidableEq, Inhabited

namespace Name

def empty : Name := ⟨0⟩

def ofParts (shard index : Nat) : Name := ⟨UInt32.ofNat (shard <<< 28 + index)⟩

def shard (n : Name) : Nat := n.raw.toNat >>> 28

/-- The number of the string within its shard. -/
def index (n : Name) : Nat := n.raw.toNat % 0x10000000

end Name

/-- A part of the strings, in the order in which they came, with the number of each. -/
structure Shard where
  numbers : List (String × Nat) := []
  strings : Array String := #[]
  deriving Inhabited

def Shard.push (shard : Shard) (text : String) : Shard :=
  ⟨(text, shard.strings.size) :: shard.numbers, shard.strings.push text⟩

structure Interner where
  shards : Vector Shard 16
  count : Nat

namespace Interner

def new : Interner := ⟨(Vector.replicate 16 {}).set 0 (Shard.push {} ""), 1⟩

/-- The shard of a string. Strings that agree in their first eight bytes share one. -/
def shardFor (text : String) : Fin 16 :=
  let hash : UInt32 := (text.toUTF8.toList.take 8).foldl (fun h b => h * 31 + b.toUInt32) 0
  Fin.ofNat 16 hash.toNat

/-- The name of a string, which is added if it is new. None if its shard is full. -/
def intern? (t : Interner) (text : String) : Option (Name × Interner) :=
  let k := shardFor text
  let shard := t.shards.get k
  match shard.numbers.lookup text with
  | some i => some (.ofParts k i, t)
  | none =>
    if shard.strings.size < 0x10000000 then
      some (.ofParts k shard.strings.size, ⟨t.shards.set k (shard.push text) k.isLt, t.count + 1⟩)
    else none

/-- The string with a name, or the empty string if there is none. -/
def lookup (t : Interner) (n : Name) : String :=
  (t.shards[n.shard]?.bind (·.strings[n.index]?)).getD ""

def isEmpty (t : Interner) : Bool := t.count ≤ 1

end Interner

end ExprCore
