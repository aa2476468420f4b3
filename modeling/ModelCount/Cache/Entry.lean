/-
Cache entries: the key of a component, the count it turned out to have, and what eviction needs to
know. The clock of the cache ticks once for every lookup.
-/
import ModelCount.Packing.Key

namespace ModelCount

structure CacheEntry where
  key : PackedKey
  /-- The slot of the super-component, when it had one. -/
  parent : Option Slot
  /-- The time the entry was stored. -/
  created : Nat
  count : Option Nat := none
  /-- The lookups between storing the entry and its count. -/
  ticks : Nat := 0
  /-- No live component refers to the entry any more. -/
  deletable : Bool := false
  deriving DecidableEq, Repr

/-- The bytes of a count, in limbs of 64 bits. -/
def countBytes (n : Nat) : Nat := 8 * ((bitLength n + 63) / 64)

namespace CacheEntry

/-- What every entry takes, apart from the words of its key and its count. -/
def overhead : Nat := 84

def byteSize (e : CacheEntry) : Nat := overhead + e.key.byteSize + (e.count.map countBytes).getD 0

def isSolved (e : CacheEntry) : Bool := e.count.isSome

/-- Only a solved entry without a live component may be evicted. -/
def isEvictable (e : CacheEntry) : Bool := e.isSolved && e.deletable

def setCount (e : CacheEntry) (n time : Nat) : CacheEntry :=
  { e with count := some n, ticks := time - e.created }

def setDeletable (e : CacheEntry) : CacheEntry := { e with deletable := true }

end CacheEntry

end ModelCount
