/-
The slots that the cache takes for granted. A lookup reads the slots of a bucket, storing writes to a slot
that is free, and a slot that is emptied is in use. The operations here are those of the cache, with no
outcome where such a slot does not exist; as long as the buckets list existing slots, they always have one.
-/
import ModelCount.Proofs.Cache.Lookup

namespace ModelCount

namespace Cache

/-! ## Operations with checked slots -/

def setSlot? (c : Cache) (s : Slot) (en : Option CacheEntry) : Option Cache :=
  if s < c.slots.size then some (c.setSlot s en) else none

def remove? (c : Cache) (s : Slot) : Option Cache := if s < c.slots.size then some (c.remove s) else none

def release? (c : Cache) (s : Slot) : Option Cache :=
  match c.entry? s with
  | none => some c
  | some e =>
    if e.isSolved then some (c.setDeletable s)
    else do
      let c ← c.remove? s
      return { c with stats := { c.stats with discarded := c.stats.discarded + 1 } }

def evict? (c : Cache) (target : Nat) : List Slot → Option Cache
  | [] => some c
  | s :: rest =>
    if c.stats.bytes ≤ target then some c
    else do
      let c ← c.remove? s
      evict? { c with stats := { c.stats with evicted := c.stats.evicted + 1 } } target rest

def enforceLimit? (c : Cache) : Option Cache :=
  if c.maxBytes < c.stats.bytes then c.evict? (c.maxBytes / 2) c.candidates else some c

def setLimits? (c : Cache) (config : Config) : Option Cache :=
  { c with caching := config.caching, maxBytes := config.maxBytes }.enforceLimit?

/-- The first count in the slots of a bucket whose entry has the key. -/
def scan? (c : Cache) (key : PackedKey) : List Slot → Option (Option Nat)
  | [] => some none
  | s :: rest => do
    match (← c.slots[s]?).bind fun e => if e.key = key then e.count else none with
    | some n => return some n
    | none => c.scan? key rest

def lookup? (c : Cache) (key : PackedKey) : Option (Option Nat × Cache) :=
  if c.caching then do
    let found ← c.scan? key (c.bucket key.hash)
    let stats := { c.stats with
      lookups := c.stats.lookups + 1
      hits := if found.isSome then c.stats.hits + 1 else c.stats.hits }
    return (found, { c with clock := c.clock + 1, stats })
  else some (none, c)

def answer? (c : Cache) (level : Level) (key : PackedKey) : Option (Bool × Level × Cache) := do
  match ← c.lookup? key with
  | (some n, c) => return (true, level.times n, c)
  | (none, c) => return (false, level, c)

def place? (c : Cache) (e : CacheEntry) : Option (Slot × Cache) :=
  match c.free with
  | s :: free => do return (s, ← { c with free }.setSlot? s (some e))
  | [] => some (c.slots.size, { c with slots := c.slots.push (some e) })

def store? (c : Cache) (key : PackedKey) (parent : Option Slot) : Option (Slot × Cache) := do
  let e : CacheEntry := { key, parent, created := c.clock }
  let (s, c) ← c.place? e
  let c := c.link key.hash s
  let stats := { c.stats with stored := c.stats.stored + 1, bytes := c.stats.bytes + e.byteSize }
  return (s, ← { c with stats }.enforceLimit?)

/-! ## The invariant -/

/-- Every slot that is free or in a bucket exists. -/
structure InRange (c : Cache) : Prop extends c.WF where
  lt_of_mem_bucket : ∀ hash, ∀ s ∈ c.bucket hash, s < c.slots.size

variable {c : Cache}

theorem inRange_new (scheme : PackingScheme) (config : Config) : (new scheme config).InRange :=
  ⟨wf_new scheme config, fun hash s hs => by simp [new, bucket] at hs⟩

theorem bucket_congr {c' : Cache} (h : c'.buckets = c.buckets) (hash : UInt32) : c'.bucket hash = c.bucket hash := by
  rw [bucket, bucket, h]

/-- The invariant depends on the slots, the free list and the buckets alone. -/
theorem InRange.congr {c' : Cache} (h : c.InRange) (hs : c'.slots = c.slots) (hf : c'.free = c.free)
    (hb : c'.buckets = c.buckets) : c'.InRange :=
  ⟨h.toWF.congr hs hf, fun hash s hmem => hs ▸ h.lt_of_mem_bucket hash s (bucket_congr hb hash ▸ hmem)⟩

theorem InRange.setSlot (h : c.InRange) {s : Slot} {en en' : CacheEntry} (hs : c.entry? s = some en) :
    (c.setSlot s (some en')).InRange :=
  ⟨h.toWF.setSlot hs, fun hash t ht =>
    Nat.lt_of_lt_of_eq (h.lt_of_mem_bucket hash t ht) Array.size_setIfInBounds.symm⟩

theorem InRange.remove (h : c.InRange) (s : Slot) : (c.remove s).InRange := by
  refine ⟨h.toWF.remove s, fun hash t ht => ?_⟩
  refine Nat.lt_of_lt_of_eq (h.lt_of_mem_bucket hash t ?_) (c.size_remove s).symm
  rcases hs : c.entry? s with _ | en
  · rwa [Cache.remove, hs] at ht
  · have hbuckets : (c.remove s).buckets = (c.unlink en.key.hash s).buckets := by
      simp only [Cache.remove, hs, unlink, Cache.setSlot, bucket]
      split <;> rfl
    rw [bucket_congr hbuckets, bucket_unlink] at ht
    split at ht
    · rename_i hhash
      exact hhash ▸ (List.mem_filter.1 ht).1
    · exact ht

theorem InRange.evictOne (h : c.InRange) (s : Slot) : (c.evictOne s).InRange := (h.remove s).congr rfl rfl rfl

theorem InRange.enforceLimit (h : c.InRange) : c.enforceLimit.InRange :=
  enforceLimit_induct (P := InRange) (fun _ s _ h => h.evictOne s) h

theorem InRange.setLimits (h : c.InRange) (config : Config) : (c.setLimits config).InRange :=
  InRange.enforceLimit (h.congr rfl rfl rfl)

theorem InRange.setDeletable (h : c.InRange) (s : Slot) : (c.setDeletable s).InRange := by
  unfold Cache.setDeletable
  split
  · exact h
  · exact h.setSlot ‹_›

theorem InRange.release (h : c.InRange) (s : Slot) : (c.release s).InRange := by
  unfold Cache.release
  split
  · exact h
  · split
    · exact h.setDeletable s
    · exact (h.remove s).congr rfl rfl rfl

theorem InRange.storeCount (h : c.InRange) (s : Slot) (n : Nat) : (c.storeCount s n).InRange := by
  unfold Cache.storeCount
  split
  · exact h
  · exact (h.setSlot ‹_›).congr rfl rfl rfl

theorem InRange.lookup (h : c.InRange) (key : PackedKey) : (c.lookup key).2.InRange := by
  unfold Cache.lookup
  split
  · exact h.congr rfl rfl rfl
  · exact h

theorem place_size (h : c.WF) (en : CacheEntry) :
    c.slots.size ≤ (c.place en).2.slots.size ∧ (c.place en).1 < (c.place en).2.slots.size := by
  unfold place
  split
  · rename_i s free hfree
    have hlt := ((h.mem_free s).1 (hfree ▸ List.mem_cons_self)).2.1
    have hsize : (setSlot { c with free } s (some en)).slots.size = c.slots.size := Array.size_setIfInBounds
    exact ⟨Nat.le_of_eq hsize.symm, Nat.lt_of_lt_of_eq hlt hsize.symm⟩
  · exact ⟨by simp, by simp⟩

theorem InRange.put (h : c.InRange) (key : PackedKey) (parent : Option Slot) : (c.put key parent).InRange := by
  obtain ⟨hgrows, hnew⟩ := place_size h.toWF (c.newEntry key parent)
  refine ⟨h.toWF.put key parent, fun hash s hs => ?_⟩
  show s < (c.place (c.newEntry key parent)).2.slots.size
  rw [bucket_congr (c.buckets_put key parent), bucket_link] at hs
  split at hs
  · rcases List.mem_append.1 hs with hs | hs
    · exact Nat.lt_of_lt_of_le (h.lt_of_mem_bucket _ s hs) hgrows
    · rw [List.mem_singleton.1 hs]
      exact hnew
  · exact Nat.lt_of_lt_of_le (h.lt_of_mem_bucket hash s hs) hgrows

theorem InRange.store (h : c.InRange) (key : PackedKey) (parent : Option Slot) : (c.store key parent).2.InRange :=
  (h.put key parent).enforceLimit

/-! ## The operations have an outcome -/

theorem remove?_eq {s : Slot} (h : s < c.slots.size) : c.remove? s = some (c.remove s) := if_pos h

theorem release?_eq (c : Cache) (s : Slot) : c.release? s = some (c.release s) := by
  rcases hs : c.entry? s with _ | en
  · simp only [release?, release, hs]
  · simp only [release?, release, hs, remove?_eq (lt_size_of_some hs), Option.bind_eq_bind, Option.bind_some]
    split <;> rfl

theorem evict?_eq (target : Nat) : ∀ (slots : List Slot) {c : Cache}, (∀ s ∈ slots, s < c.slots.size) →
    c.evict? target slots = some (c.evict target slots)
  | [], _, _ => rfl
  | s :: slots, c, h => by
    rw [List.forall_mem_cons] at h
    rw [evict?, evict_cons, remove?_eq h.1, Option.bind_eq_bind, Option.bind_some]
    split
    · rfl
    · exact evict?_eq target slots fun t ht => Nat.lt_of_lt_of_eq (h.2 t ht) (c.size_remove s).symm

theorem enforceLimit?_eq (c : Cache) : c.enforceLimit? = some c.enforceLimit := by
  unfold enforceLimit? enforceLimit
  split
  · refine evict?_eq _ _ fun s hs => ?_
    obtain ⟨en, hen⟩ := hasEntry_iff.1 (hasEntry_of_mem_candidates hs)
    exact lt_size_of_some hen
  · rfl

theorem setLimits?_eq (c : Cache) (config : Config) : c.setLimits? config = some (c.setLimits config) :=
  enforceLimit?_eq _

theorem scan?_eq (key : PackedKey) : ∀ {slots : List Slot}, (∀ s ∈ slots, s < c.slots.size) →
    c.scan? key slots = some (slots.findSome? (c.solution? key))
  | [], _ => rfl
  | s :: slots, h => by
    rw [List.forall_mem_cons] at h
    have hread : c.slots[s]? = some (c.entry? s) := by
      simp only [Array.getD_eq_getD_getElem?, Array.getElem?_eq_getElem h.1, Option.getD_some, entry?]
    rw [scan?, hread, Option.bind_eq_bind, Option.bind_some, List.findSome?_cons, scan?_eq key h.2]
    show (match c.solution? key s with | some n => some (some n) | none => _) = _
    cases c.solution? key s <;> rfl

theorem InRange.lookup?_eq (h : c.InRange) (key : PackedKey) : c.lookup? key = some (c.lookup key) := by
  have hscan : c.scan? key (c.bucket key.hash) = some (c.find? key) := scan?_eq key (h.lt_of_mem_bucket key.hash)
  unfold lookup? Cache.lookup
  rw [hscan, Option.bind_eq_bind, Option.bind_some]
  split <;> rfl

theorem InRange.answer?_eq (h : c.InRange) (level : Level) (key : PackedKey) :
    c.answer? level key = some (c.answer level key) := by
  rw [answer?, answer, h.lookup?_eq, Option.bind_eq_bind, Option.bind_some]
  rcases c.lookup key with ⟨_ | n, cache⟩ <;> rfl

theorem WF.place?_eq (h : c.WF) (en : CacheEntry) : c.place? en = some (c.place en) := by
  rcases hfree : c.free with _ | ⟨s, free⟩
  · simp only [place?, place, hfree]
  · have hlt := ((h.mem_free s).1 (hfree ▸ List.mem_cons_self)).2.1
    simp only [place?, place, hfree, setSlot?, if_pos hlt, Option.bind_eq_bind, Option.bind_some]
    rfl

theorem WF.store?_eq (h : c.WF) (key : PackedKey) (parent : Option Slot) :
    c.store? key parent = some (c.store key parent) := by
  simp only [store?, h.place?_eq, enforceLimit?_eq, Option.bind_eq_bind, Option.bind_some]
  rfl

end Cache

end ModelCount
