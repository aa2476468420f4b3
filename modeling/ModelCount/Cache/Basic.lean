/-
The cache of component counts. Entries live in numbered slots, a slot that became empty is used
again before a new one, and the slots of the entries with one hash are listed in the order they
were stored, which is the order of a lookup.
-/
import Std.Data.TreeMap
import ModelCount.Cache.Entry
import ModelCount.Config.Basic
import ModelCount.Level

namespace ModelCount

structure CacheStats where
  lookups : Nat := 0
  hits : Nat := 0
  stored : Nat := 0
  /-- Entries removed by compaction. -/
  evicted : Nat := 0
  /-- Entries removed because their component was released unsolved. -/
  discarded : Nat := 0
  /-- The bytes of all entries. -/
  bytes : Nat := 0
  deriving DecidableEq, Repr

structure Cache where
  scheme : PackingScheme
  caching : Bool
  maxBytes : Nat
  /-- Slot 0 is empty and stays so. -/
  slots : Array (Option CacheEntry) := #[none]
  /-- The other empty slots, the one emptied last in front. -/
  free : List Slot := []
  buckets : Std.TreeMap Nat (List Slot) := {}
  clock : Nat := 0
  stats : CacheStats := {}

namespace Cache

def new (scheme : PackingScheme) (config : Config) : Cache :=
  { scheme, caching := config.caching, maxBytes := config.maxBytes }

instance : Inhabited Cache := ⟨new default default⟩

/-! ## Queries -/

def entry? (c : Cache) (s : Slot) : Option CacheEntry := c.slots.getD s none

def hasEntry (c : Cache) (s : Slot) : Bool := c.entry? s |>.isSome

/-- The entries with their slots, in the order of the slots. -/
def entries (c : Cache) : List (Slot × CacheEntry) :=
  (List.range c.slots.size).filterMap fun s => c.entry? s |>.map (s, ·)

def size (c : Cache) : Nat := c.slots.size - 1 - c.free.length

def isEmpty (c : Cache) : Bool := c.size == 0

/-- The slots of the entries whose key has the given hash, oldest first. -/
def bucket (c : Cache) (hash : UInt32) : List Slot := c.buckets.getD hash.toNat []

/-! ## Changing single entries -/

/-- Overwrites a slot that exists. -/
def setSlot (c : Cache) (s : Slot) (e : Option CacheEntry) : Cache :=
  { c with slots := c.slots.setIfInBounds s e }

/-- Lists a slot last in the bucket of a hash. -/
def link (c : Cache) (hash : UInt32) (s : Slot) : Cache :=
  { c with buckets := c.buckets.insert hash.toNat (c.bucket hash ++ [s]) }

/-- Takes a slot off the bucket of a hash; an empty bucket is not kept. -/
def unlink (c : Cache) (hash : UInt32) (s : Slot) : Cache :=
  match (c.bucket hash).filter (· != s) with
  | [] => { c with buckets := c.buckets.erase hash.toNat }
  | slots => { c with buckets := c.buckets.insert hash.toNat slots }

/-- Empties a slot. -/
def remove (c : Cache) (s : Slot) : Cache :=
  match c.entry? s with
  | none => c
  | some e =>
    let c := (c.setSlot s none).unlink e.key.hash s
    { c with free := s :: c.free, stats := { c.stats with bytes := c.stats.bytes - e.byteSize } }

/-- Marks an entry as not referred to any more. -/
def setDeletable (c : Cache) (s : Slot) : Cache :=
  match c.entry? s with
  | none => c
  | some e => c.setSlot s (some e.setDeletable)

/-- Lets go of an entry: a solved one may be evicted from now on, an unsolved one is discarded. -/
def release (c : Cache) (s : Slot) : Cache :=
  match c.entry? s with
  | none => c
  | some e =>
    if e.isSolved then c.setDeletable s
    else
      let c := c.remove s
      { c with stats := { c.stats with discarded := c.stats.discarded + 1 } }

/-- Notes the count of an entry; a slot that is empty by now stays so. -/
def storeCount (c : Cache) (s : Slot) (n : Nat) : Cache :=
  match c.entry? s with
  | none => c
  | some e =>
    let e' := e.setCount n c.clock
    let c := c.setSlot s (some e')
    { c with stats := { c.stats with bytes := c.stats.bytes - e.byteSize + e'.byteSize } }

/-! ## Eviction -/

/-- The slots of the entries that may be evicted, oldest first. -/
def candidates (c : Cache) : List Slot :=
  let entries := c.entries.filter fun (_, e) => e.isEvictable
  (sortBy (fun a b => decide (a.2.created ≤ b.2.created)) entries).map Prod.fst

/-- Evicts the given slots in turn until the bytes are within the target. -/
def evict (c : Cache) (target : Nat) : List Slot → Cache
  | [] => c
  | s :: rest =>
    if c.stats.bytes ≤ target then c
    else
      let c := c.remove s
      evict { c with stats := { c.stats with evicted := c.stats.evicted + 1 } } target rest

/-- Evicts old entries until half of the allowed bytes are in use. -/
def compact (c : Cache) : Cache := c.evict (c.maxBytes / 2) c.candidates

/-- Compacts the cache if it is above its limit. -/
def enforceLimit (c : Cache) : Cache := if c.maxBytes < c.stats.bytes then c.compact else c

def setLimits (c : Cache) (config : Config) : Cache :=
  { c with caching := config.caching, maxBytes := config.maxBytes }.enforceLimit

/-! ## Lookup and storing -/

/-- The count of a solved entry with the given key. -/
def find? (c : Cache) (key : PackedKey) : Option Nat :=
  (c.bucket key.hash).findSome? fun s =>
    c.entry? s |>.bind fun e => if e.key = key then e.count else none

/-- Looks a key up. While caching is off, nothing is found and the clock stands still. -/
def lookup (c : Cache) (key : PackedKey) : Option Nat × Cache :=
  if c.caching then
    let found := c.find? key
    let stats := { c.stats with
      lookups := c.stats.lookups + 1
      hits := if found.isSome then c.stats.hits + 1 else c.stats.hits }
    (found, { c with clock := c.clock + 1, stats })
  else (none, c)

/-- Looks a key up and multiplies the count that is found into a level. -/
def answer (c : Cache) (level : Level) (key : PackedKey) : Bool × Level × Cache :=
  match c.lookup key with
  | (some n, c) => (true, level.times n, c)
  | (none, c) => (false, level, c)

/-- Puts an entry into the slot emptied last, or into a new one. -/
def place (c : Cache) (e : CacheEntry) : Slot × Cache :=
  match c.free with
  | s :: free => (s, { c with free }.setSlot s (some e))
  | [] => (c.slots.size, { c with slots := c.slots.push (some e) })

/-- Stores an unsolved entry. The new entry itself is never evicted. -/
def store (c : Cache) (key : PackedKey) (parent : Option Slot) : Slot × Cache :=
  let e : CacheEntry := { key, parent, created := c.clock }
  let (s, c) := c.place e
  let c := c.link key.hash s
  let stats := { c.stats with stored := c.stats.stored + 1, bytes := c.stats.bytes + e.byteSize }
  (s, { c with stats }.enforceLimit)

end Cache

end ModelCount
