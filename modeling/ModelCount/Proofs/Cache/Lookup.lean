/-
Lookups as scans. A bucket holds the stored slots of its hash in the order they were stored, so the
entry a lookup finds through its bucket is the one that a scan over all entries, oldest first, finds.
-/
import Mathlib.Data.List.Nodup
import ModelCount.Proofs.Cache.History

namespace ModelCount

namespace Cache

/-- The hash of the entry in a slot. -/
def hashAt (c : Cache) (s : Slot) : Option UInt32 := c.entry? s |>.map (·.key.hash)

/-- The count of the entry in a slot, when it is solved and has the key. -/
def solution? (c : Cache) (key : PackedKey) (s : Slot) : Option Nat :=
  c.entry? s |>.bind fun e => if e.key = key then e.count else none

/-- The buckets are `order`, which has every stored slot once, sorted by hash. -/
structure Indexed (c : Cache) (order : List Slot) : Prop where
  nodup : order.Nodup
  mem : ∀ s, c.hasEntry s = true → s ∈ order
  bucket : ∀ hash, c.bucket hash = order.filter fun s => c.hashAt s = some hash
  used : ∀ i slots, c.buckets[i]? = some slots → slots ≠ [] ∧ ∃ hash : UInt32, hash.toNat = i

theorem hasEntry_eq_hashAt (c : Cache) (s : Slot) : c.hasEntry s = (c.hashAt s).isSome := by
  simp [hasEntry, hashAt]

theorem indexed_new (scheme : PackingScheme) (config : Config) : (new scheme config).Indexed [] where
  nodup := .nil
  mem s h := by
    obtain ⟨en, hs⟩ := hasEntry_iff.1 h
    have hlt := lt_size_of_some hs
    simp only [new, List.size_toArray, List.length_singleton, Nat.lt_one_iff] at hlt
    rw [hlt] at hs
    cases hs
  bucket hash := by simp [bucket, new]
  used i slots h := by simp [new] at h

/-- The index depends on the buckets and the hashes alone. -/
theorem Indexed.congr {c c' : Cache} {order : List Slot} (h : c.Indexed order) (hb : c'.buckets = c.buckets)
    (hh : ∀ s, c'.hashAt s = c.hashAt s) : c'.Indexed order where
  nodup := h.nodup
  mem s hs := h.mem s (by rwa [hasEntry_eq_hashAt, ← hh, ← hasEntry_eq_hashAt])
  bucket hash := by simp only [hh, ← h.bucket, Cache.bucket, hb]
  used i slots hi := h.used i slots (hb ▸ hi)

theorem hashAt_of_slots {c c' : Cache} (h : c'.slots = c.slots) (s : Slot) : c'.hashAt s = c.hashAt s := by
  rw [hashAt, hashAt, entry?_congr h]

/-- Slots that are not stored may be left out. -/
theorem Indexed.keep {c : Cache} {order : List Slot} (h : c.Indexed order) : c.Indexed (order.filter c.hasEntry) where
  nodup := h.nodup.filter _
  mem s hs := List.mem_filter.2 ⟨h.mem s hs, hs⟩
  bucket hash := by
    rw [h.bucket, List.filter_filter]
    refine List.filter_congr fun s _ => ?_
    rw [hasEntry_eq_hashAt]
    by_cases hs : c.hashAt s = some hash <;> simp [hs]
  used := h.used

/-! ## Buckets -/

theorem bucket_eq (c : Cache) (hash : UInt32) : c.bucket hash = c.buckets[hash.toNat]?.getD [] :=
  Std.TreeMap.getD_eq_getD_getElem?

theorem buckets_link (c : Cache) (hash : UInt32) (s : Slot) (i : Nat) :
    (c.link hash s).buckets[i]? = if hash.toNat = i then some (c.bucket hash ++ [s]) else c.buckets[i]? := by
  simp only [link, Std.TreeMap.getElem?_insert, Nat.compare_eq_eq]

theorem buckets_unlink (c : Cache) (hash : UInt32) (s : Slot) (i : Nat) :
    (c.unlink hash s).buckets[i]? =
      if hash.toNat = i then
        if (c.bucket hash).filter (· != s) = [] then none else some ((c.bucket hash).filter (· != s))
      else c.buckets[i]? := by
  unfold unlink
  split <;> rename_i h
  · simp only [h, Std.TreeMap.getElem?_erase, Nat.compare_eq_eq, if_true]
  · rw [if_neg h]
    simp only [Std.TreeMap.getElem?_insert, Nat.compare_eq_eq]

theorem bucket_link (c : Cache) (hash hash' : UInt32) (s : Slot) :
    (c.link hash s).bucket hash' = if hash = hash' then c.bucket hash ++ [s] else c.bucket hash' := by
  simp only [bucket_eq (c.link hash s), buckets_link, UInt32.toNat_inj]
  split
  · rfl
  · rw [bucket_eq]

theorem bucket_unlink (c : Cache) (hash hash' : UInt32) (s : Slot) :
    (c.unlink hash s).bucket hash' = if hash = hash' then (c.bucket hash).filter (· != s) else c.bucket hash' := by
  simp only [bucket_eq (c.unlink hash s), buckets_unlink, UInt32.toNat_inj]
  split
  · split <;> rename_i h
    · exact h.symm
    · rfl
  · rw [bucket_eq]

/-! ## Single steps -/

theorem hashAt_put {c : Cache} (h : c.WF) (key : PackedKey) (parent : Option Slot) (s : Slot) :
    (c.put key parent).hashAt s = if s = (c.store key parent).1 then some key.hash else c.hashAt s := by
  rw [hashAt, entry?_put h]
  split <;> rfl

theorem buckets_put (c : Cache) (key : PackedKey) (parent : Option Slot) :
    (c.put key parent).buckets = (c.link key.hash (c.store key parent).1).buckets := by
  have h : ∀ en, (c.place en).2.buckets = c.buckets := fun en => by unfold place; split <;> rfl
  simp only [put, link, bucket, h, store_eq]

/-- A new entry is listed after all others. -/
theorem Indexed.put {c : Cache} {order : List Slot} (h : c.Indexed order) (hwf : c.WF) (key : PackedKey)
    (parent : Option Slot) (hnew : (c.store key parent).1 ∉ order) :
    (c.put key parent).Indexed (order ++ [(c.store key parent).1]) where
  nodup := List.Nodup.append h.nodup (List.nodup_singleton _) (List.disjoint_singleton.2 hnew)
  mem s hs := by
    rw [hasEntry_eq_hashAt, hashAt_put hwf] at hs
    rw [List.mem_append, List.mem_singleton]
    split at hs
    · exact .inr ‹_›
    · exact .inl (h.mem s (by rwa [hasEntry_eq_hashAt]))
  bucket hash := by
    -- No slot listed so far is the new one, so its hash is as before.
    have hold : (order.filter fun s => (c.put key parent).hashAt s = some hash) = c.bucket hash := by
      rw [h.bucket]
      refine List.filter_congr fun s hs => ?_
      rw [hashAt_put hwf, if_neg (ne_of_mem_of_not_mem hs hnew)]
    rw [bucket_eq, buckets_put, ← bucket_eq, bucket_link, List.filter_append, hold, List.filter_singleton,
      hashAt_put hwf, if_pos rfl]
    by_cases hk : key.hash = hash
    · simp [hk]
    · simp [hk]
  used i slots hi := by
    rw [buckets_put, buckets_link] at hi
    split at hi
    · cases hi
      exact ⟨List.append_ne_nil_of_right_ne_nil _ (List.cons_ne_nil _ _), key.hash, ‹_›⟩
    · exact h.used i slots hi

theorem hashAt_remove (c : Cache) (s t : Slot) : (c.remove s).hashAt t = if s = t then none else c.hashAt t := by
  rw [hashAt, entry?_remove]
  split <;> rfl

theorem Indexed.remove {c : Cache} {order : List Slot} (h : c.Indexed order) (s : Slot) : (c.remove s).Indexed order := by
  rcases hs : c.entry? s with _ | en
  · simpa only [Cache.remove, hs] using h
  have hbuckets : (c.remove s).buckets = (c.unlink en.key.hash s).buckets := by
    simp only [Cache.remove, hs, unlink, setSlot, Cache.bucket]
    split <;> rfl
  refine ⟨h.nodup, fun t ht => ?_, fun hash => ?_, fun i slots hi => ?_⟩
  · rw [hasEntry_eq_hashAt, hashAt_remove] at ht
    split at ht
    · cases ht
    · exact h.mem t (by rwa [hasEntry_eq_hashAt])
  · rw [bucket_eq, hbuckets, ← bucket_eq, bucket_unlink, h.bucket, h.bucket, List.filter_filter]
    split
    · rename_i hk
      refine List.filter_congr fun t _ => ?_
      rw [hashAt_remove, hk]
      by_cases hst : s = t <;> simp [hst, Ne.symm]
    · -- The removed slot was in another bucket.
      rename_i hk
      refine List.filter_congr fun t _ => ?_
      rw [hashAt_remove]
      split
      · rename_i hst
        simp [← hst, hashAt, hs, hk]
      · rfl
  · rw [hbuckets, buckets_unlink] at hi
    split at hi
    · split at hi
      · cases hi
      · cases hi
        exact ⟨‹_›, en.key.hash, ‹_›⟩
    · exact h.used i slots hi

theorem Indexed.evictOne {c : Cache} {order : List Slot} (h : c.Indexed order) (s : Slot) :
    (c.evictOne s).Indexed order :=
  (h.remove s).congr rfl fun _ => rfl

theorem Indexed.compact {c : Cache} {order : List Slot} (h : c.Indexed order) : c.compact.Indexed order :=
  compact_induct (P := (·.Indexed order)) (fun _ s _ h => h.evictOne s) h

theorem Indexed.enforceLimit {c : Cache} {order : List Slot} (h : c.Indexed order) : c.enforceLimit.Indexed order :=
  enforceLimit_induct (P := (·.Indexed order)) (fun _ s _ h => h.evictOne s) h

/-- An entry keeps its key when it is counted or marked. -/
theorem Indexed.setSlot {c : Cache} {order : List Slot} (h : c.Indexed order) {s : Slot} {en en' : CacheEntry}
    (hs : c.entry? s = some en) (hkey : en'.key = en.key) : (c.setSlot s (some en')).Indexed order := by
  refine h.congr rfl fun t => ?_
  rw [hashAt, entry?_setSlot]
  split
  · rename_i hst
    simp [← hst.1, hashAt, hs, hkey]
  · rfl

theorem Indexed.setDeletable {c : Cache} {order : List Slot} (h : c.Indexed order) (s : Slot) :
    (c.setDeletable s).Indexed order := by
  unfold Cache.setDeletable
  split
  · exact h
  · rename_i hs
    exact h.setSlot hs rfl

theorem Indexed.release {c : Cache} {order : List Slot} (h : c.Indexed order) (s : Slot) :
    (c.release s).Indexed order := by
  unfold Cache.release
  split
  · exact h
  · split
    · exact h.setDeletable s
    · exact (h.remove s).congr rfl fun _ => rfl

theorem Indexed.storeCount {c : Cache} {order : List Slot} (h : c.Indexed order) (s : Slot) (n : Nat) :
    (c.storeCount s n).Indexed order := by
  unfold Cache.storeCount
  split
  · exact h
  · rename_i en hs
    have h' : (c.setSlot s (some (en.setCount n c.clock))).Indexed order := h.setSlot hs rfl
    exact h'.congr rfl fun _ => rfl

/-! ## Whole runs -/

/-- The history lists the stored slots, and the buckets are sorted out of it. -/
structure Run.Indexed (r : Run) : Prop where
  wf : r.cache.WF
  indexed : r.cache.Indexed r.history.order
  stored : ∀ s ∈ r.history.order, r.cache.hasEntry s = true

theorem Run.Indexed.step {r : Run} (h : r.Indexed) (op : Op) : (r.step op).Indexed := by
  obtain ⟨c, history⟩ := r
  obtain ⟨hwf, hindexed, hstored⟩ := h
  have key : (op.apply c).Indexed (history.note c op).order := by
    cases op with
    | store key parent =>
      rw [History.order_note_store]
      refine (hindexed.put hwf key parent fun hmem => ?_).enforceLimit
      have hs := hstored _ hmem
      rw [hasEntry, (store_stores c key parent).fresh hwf] at hs
      cases hs
    | storeCount s n =>
      rw [History.order_note_storeCount]
      exact hindexed.storeCount s n
    | release s => exact hindexed.release s
    | setDeletable s => exact hindexed.setDeletable s
    | compact => exact hindexed.compact
    | setLimits config =>
      refine Cache.Indexed.enforceLimit (hindexed.congr rfl fun _ => rfl)
    | answer level key =>
      obtain ⟨hslots, -⟩ := lookup_keeps c key
      have hbuckets : (c.lookup key).2.buckets = c.buckets := by unfold lookup; split <;> rfl
      rw [Op.apply, lookup_snd]
      exact hindexed.congr hbuckets (hashAt_of_slots hslots)
  refine ⟨hwf.apply op, ?_, fun s hs => ?_⟩
  · show (op.apply c).Indexed ((history.note c op).keep (op.apply c)).order
    rw [History.order_keep]
    exact key.keep
  · change s ∈ ((history.note c op).keep (op.apply c)).order at hs
    rw [History.order_keep, List.mem_filter] at hs
    exact hs.2

theorem Run.indexed (scheme : PackingScheme) (config : Config) (ops : List Op) :
    ((Run.start scheme config).steps ops).Indexed :=
  Run.steps_induct ⟨wf_new scheme config, indexed_new scheme config, fun _ h => by cases h⟩
    (fun _ op h => h.step op) ops

/-! ## Lookups -/

theorem findSome?_filter {α β : Type} {p : α → Bool} {f : α → Option β} {xs : List α}
    (h : ∀ x ∈ xs, p x = false → f x = none) : (xs.filter p).findSome? f = xs.findSome? f := by
  induction xs with
  | nil => rfl
  | cons x xs ih =>
    obtain ⟨hx, hxs⟩ := List.forall_mem_cons.1 h
    rw [List.filter_cons, List.findSome?_cons, ← ih hxs]
    split
    · rw [List.findSome?_cons]
    · rename_i hp
      rw [hx (by simpa using hp)]

theorem solution?_eq_some {c : Cache} {key : PackedKey} {s : Slot} {n : Nat} :
    c.solution? key s = some n ↔ ∃ en, c.entry? s = some en ∧ en.key = key ∧ en.count = some n := by
  simp [solution?, Option.bind_eq_some_iff]

/-- The bucket may be left out: other entries have other keys. -/
theorem Indexed.find?_eq {c : Cache} {order : List Slot} (h : c.Indexed order) (key : PackedKey) :
    c.find? key = order.findSome? (c.solution? key) := by
  show (c.bucket key.hash).findSome? (c.solution? key) = _
  rw [h.bucket]
  refine findSome?_filter fun s _ hs => ?_
  rcases hn : c.solution? key s with _ | n
  · rfl
  · obtain ⟨en, hen, rfl, -⟩ := solution?_eq_some.1 hn
    simp [hashAt, hen] at hs

theorem Indexed.find?_isSome {c : Cache} {order : List Slot} (h : c.Indexed order) (key : PackedKey) :
    (c.find? key).isSome = true ↔ ∃ s en, c.entry? s = some en ∧ en.key = key ∧ en.isSolved = true := by
  rw [h.find?_eq, Option.isSome_iff_exists]
  constructor
  · rintro ⟨n, hn⟩
    obtain ⟨s, -, hs⟩ := List.exists_of_findSome?_eq_some hn
    obtain ⟨en, hen, hkey, hcount⟩ := solution?_eq_some.1 hs
    exact ⟨s, en, hen, hkey, Option.isSome_iff_exists.2 ⟨n, hcount⟩⟩
  · rintro ⟨s, en, hen, hkey, hsolved⟩
    obtain ⟨n, hcount⟩ := Option.isSome_iff_exists.1 hsolved
    refine Option.isSome_iff_exists.1 (List.findSome?_isSome_iff.2 ⟨s, h.mem s (hasEntry_iff.2 ⟨en, hen⟩), ?_⟩)
    exact Option.isSome_iff_exists.2 ⟨n, solution?_eq_some.2 ⟨en, hen, hkey, hcount⟩⟩

/-- Of several entries that would do, the one stored first is found. -/
theorem Indexed.find?_first {c : Cache} {order : List Slot} (h : c.Indexed order) {key : PackedKey} {n : Nat}
    (hn : c.find? key = some n) : ∃ older s newer en, order = older ++ s :: newer ∧
      c.entry? s = some en ∧ en.key = key ∧ en.count = some n ∧
      ∀ t ∈ older, ∀ en', c.entry? t = some en' → en'.key = key → en'.isSolved = false := by
  rw [h.find?_eq] at hn
  obtain ⟨older, s, newer, horder, hs, holder⟩ := List.findSome?_eq_some_iff.1 hn
  obtain ⟨en, hen, hkey, hcount⟩ := solution?_eq_some.1 hs
  refine ⟨older, s, newer, en, horder, hen, hkey, hcount, fun t ht en' hen' hkey' => ?_⟩
  have hnone := holder t ht
  simpa only [solution?, hen', Option.bind_some, hkey', if_true, CacheEntry.isSolved,
    Option.isSome_eq_false_iff, Option.isNone_iff_eq_none] using hnone

theorem Indexed.count_bucket {c : Cache} {order : List Slot} (h : c.Indexed order) {s : Slot} {en : CacheEntry}
    (hs : c.entry? s = some en) : (c.bucket en.key.hash).count s = 1 := by
  rw [h.bucket]
  refine List.count_eq_one_of_mem (h.nodup.filter _) (List.mem_filter.2 ⟨h.mem s (hasEntry_iff.2 ⟨en, hs⟩), ?_⟩)
  simp [hashAt, hs]

theorem Indexed.of_mem_buckets {c : Cache} {order : List Slot} (h : c.Indexed order) {i : Nat} {slots : List Slot}
    (hi : c.buckets[i]? = some slots) :
    slots ≠ [] ∧ ∀ s ∈ slots, ∃ en, c.entry? s = some en ∧ en.key.hash.toNat = i := by
  obtain ⟨hne, hash, rfl⟩ := h.used i slots hi
  refine ⟨hne, fun s hs => ?_⟩
  have hbucket : c.bucket hash = slots := by rw [bucket_eq, hi]; rfl
  rw [← hbucket, h.bucket, List.mem_filter, decide_eq_true_eq, hashAt, Option.map_eq_some_iff] at hs
  obtain ⟨-, en, hen, rfl⟩ := hs
  exact ⟨en, hen, rfl⟩

theorem answer_eq (c : Cache) (level : Level) (key : PackedKey) (h : c.caching = true) :
    (c.answer level key).1 = (c.find? key).isSome ∧
      (c.answer level key).2.1 = ((c.find? key).map level.times).getD level := by
  unfold answer lookup
  rw [if_pos h]
  rcases c.find? key with _ | n <;> exact ⟨rfl, rfl⟩

theorem answer_of_not_caching (c : Cache) (level : Level) (key : PackedKey) (h : c.caching = false) :
    c.answer level key = (false, level, c) := by
  simp [answer, lookup, h]

/-- A lookup through the buckets is a scan over the stored entries: it finds a solved entry with the
key when there is one, and of several the one stored first. For this every stored slot is in the
bucket of its hash once, and nothing else is in a bucket. -/
theorem Run.answer_eq_scan (scheme : PackingScheme) (config : Config) (ops : List Op) :
    let r := (Run.start scheme config).steps ops
    (∀ level key, r.cache.caching = true →
      ((r.cache.answer level key).1 = true ↔
        ∃ s en, r.cache.entry? s = some en ∧ en.key = key ∧ en.isSolved = true) ∧
      ((r.cache.answer level key).1 = true →
        ∃ older s newer en n, r.history.order = older ++ s :: newer ∧
          r.cache.entry? s = some en ∧ en.key = key ∧ en.count = some n ∧
          (∀ t ∈ older, ∀ en', r.cache.entry? t = some en' → en'.key = key → en'.isSolved = false) ∧
          (r.cache.answer level key).2.1 = level.times n) ∧
      ((r.cache.answer level key).1 = false → (r.cache.answer level key).2.1 = level)) ∧
    (∀ level key, r.cache.caching = false → r.cache.answer level key = (false, level, r.cache)) ∧
    r.history.order.Nodup ∧ (∀ s, s ∈ r.history.order ↔ r.cache.hasEntry s = true) ∧
    (∀ s en, r.cache.entry? s = some en → (r.cache.bucket en.key.hash).count s = 1) ∧
    (∀ i slots, r.cache.buckets[i]? = some slots →
      slots ≠ [] ∧ ∀ s ∈ slots, ∃ en, r.cache.entry? s = some en ∧ en.key.hash.toNat = i) := by
  intro r
  obtain ⟨-, h, hstored⟩ : r.Indexed := Run.indexed scheme config ops
  refine ⟨fun level key hcaching => ?_, fun level key => answer_of_not_caching r.cache level key, h.nodup,
    fun s => ⟨hstored s, h.mem s⟩, fun s en => h.count_bucket, fun i slots => h.of_mem_buckets⟩
  obtain ⟨hfound, hlevel⟩ := answer_eq r.cache level key hcaching
  rw [hfound, hlevel]
  refine ⟨h.find?_isSome key, fun hsome => ?_, fun hnone => ?_⟩
  · obtain ⟨n, hn⟩ := Option.isSome_iff_exists.1 hsome
    obtain ⟨older, s, newer, en, horder, hen, hkey, hcount, holder⟩ := h.find?_first hn
    refine ⟨older, s, newer, en, n, horder, hen, hkey, hcount, holder, ?_⟩
    rw [hn]
    rfl
  · rw [Option.isSome_eq_false_iff, Option.isNone_iff_eq_none] at hnone
    rw [hnone]
    rfl

/-- Slot 1 is evicted for the third entry and used again by the fourth, which comes last. -/
example :
    let old : PackedKey := ⟨#[1], 1⟩
    let key : PackedKey := ⟨#[2], 1⟩
    let r := (Run.start default { maxBytes := 240 }).steps
      [.store old none, .storeCount 1 3, .release 1, .store key none, .store key none, .store key none,
        .storeCount 1 5, .storeCount 3 6, .storeCount 2 7]
    r.history.order = [2, 3, 1] ∧ (r.cache.answer (Level.new 0 0) key).2.1.total = 7 ∧
      r.cache.find? old = none := by decide +kernel

end Cache

end ModelCount
