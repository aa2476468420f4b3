/-
What the operations of the cache do to its entries. An empty slot is listed as free exactly once, so
a stored entry comes into a slot that no entry is in. Eviction removes solved entries that nothing
refers to and no others, and what a lookup finds is the count of an entry with the key.
-/
import Mathlib.Data.List.Basic
import ModelCount.Cache.Basic

namespace ModelCount

namespace Cache

/-- The free slots are the empty ones apart from slot 0, each of them once. -/
structure WF (c : Cache) : Prop where
  size_pos : 0 < c.slots.size
  free_nodup : c.free.Nodup
  mem_free : ∀ s, s ∈ c.free ↔ 0 < s ∧ s < c.slots.size ∧ c.entry? s = none
  entry_zero : c.entry? 0 = none

theorem wf_new (scheme : PackingScheme) (config : Config) : (new scheme config).WF := by
  refine ⟨by simp [new], by simp [new], fun s => ?_, rfl⟩
  simp only [new, List.not_mem_nil, List.size_toArray, List.length_singleton, false_iff]
  exact fun h => Nat.not_lt_of_le (Nat.le_of_lt_succ h.2.1) h.1

theorem entry?_of_size_le {c : Cache} {s : Slot} (h : c.slots.size ≤ s) : c.entry? s = none := by
  simp [Array.getD_eq_getD_getElem?, Array.getElem?_eq_none h, entry?]

theorem lt_size_of_some {c : Cache} {s : Slot} {en : CacheEntry} (h : c.entry? s = some en) : s < c.slots.size := by
  refine Nat.lt_of_not_le fun hle => ?_
  rw [entry?_of_size_le hle] at h
  cases h

theorem entry?_congr {c c' : Cache} (h : c'.slots = c.slots) (s : Slot) : c'.entry? s = c.entry? s := by
  simp only [h, entry?]

/-- The invariant depends on the slots and the free list alone. -/
theorem WF.congr {c c' : Cache} (h : c.WF) (hs : c'.slots = c.slots) (hf : c'.free = c.free) : c'.WF := by
  have he := entry?_congr hs
  exact ⟨hs ▸ h.size_pos, hf ▸ h.free_nodup, fun s => by rw [hf, hs, he]; exact h.mem_free s,
    (he 0).trans h.entry_zero⟩

/-! ## Single slots -/

theorem entry?_setSlot (c : Cache) (s t : Slot) (en : Option CacheEntry) :
    entry? (c.setSlot s en) t = if s = t ∧ t < c.slots.size then en else c.entry? t := by
  simp only [setSlot, entry?, Array.getD_eq_getD_getElem?, Array.getElem?_setIfInBounds]
  by_cases h : s = t
  · subst h
    by_cases hs : s < c.slots.size <;> simp [hs]
  · simp [h]

theorem unlink_keeps (c : Cache) (hash : UInt32) (s : Slot) :
    (c.unlink hash s).slots = c.slots ∧ (c.unlink hash s).free = c.free ∧ (c.unlink hash s).scheme = c.scheme := by
  unfold unlink
  split <;> exact ⟨rfl, rfl, rfl⟩

/-- Overwriting a used slot keeps what is free. -/
theorem WF.setSlot {c : Cache} (h : c.WF) {s : Slot} {en en' : CacheEntry} (hs : c.entry? s = some en) :
    (c.setSlot s (some en')).WF := by
  have hlt := lt_size_of_some hs
  refine ⟨by simpa [Cache.setSlot] using h.size_pos, h.free_nodup, fun t => ?_, ?_⟩
  · rw [entry?_setSlot]
    show t ∈ c.free ↔ 0 < t ∧ t < (c.slots.setIfInBounds s (some en')).size ∧ _
    rw [h.mem_free, Array.size_setIfInBounds]
    by_cases hst : s = t
    · subst hst; simp [hs, hlt]
    · simp [hst]
  · rw [entry?_setSlot, if_neg, h.entry_zero]
    rintro ⟨rfl, -⟩
    rw [h.entry_zero] at hs
    cases hs

theorem entry?_remove (c : Cache) (s t : Slot) : entry? (c.remove s) t = if s = t then none else c.entry? t := by
  unfold remove
  split
  · rename_i hs
    split
    · rename_i h; rw [← h, hs]
    · rfl
  · rename_i en hs
    obtain ⟨hslots, -, -⟩ := unlink_keeps (c.setSlot s none) en.key.hash s
    have he : ∀ stats free, entry? { (c.setSlot s none).unlink en.key.hash s with free, stats } t =
        entry? (c.setSlot s none) t := fun _ _ => by simp only [hslots, entry?]
    simp only [he, entry?_setSlot]
    by_cases hst : s = t
    · subst hst; simp [lt_size_of_some hs]
    · simp [hst]

@[simp] theorem scheme_remove (c : Cache) (s : Slot) : (c.remove s).scheme = c.scheme := by
  unfold remove
  split
  · rfl
  · rename_i en hs
    exact (unlink_keeps (c.setSlot s none) en.key.hash s).2.2

theorem size_remove (c : Cache) (s : Slot) : (c.remove s).slots.size = c.slots.size := by
  unfold remove
  split
  · rfl
  · rename_i en _
    exact (congrArg Array.size (unlink_keeps (c.setSlot s none) en.key.hash s).1).trans Array.size_setIfInBounds

theorem WF.remove {c : Cache} (h : c.WF) (s : Slot) : (c.remove s).WF := by
  rcases hs : c.entry? s with _ | en
  · simpa [Cache.remove, hs] using h
  have hlt := lt_size_of_some hs
  have hpos : 0 < s := Nat.pos_of_ne_zero fun h0 => by rw [h0, h.entry_zero] at hs; cases hs
  obtain ⟨-, hfree, -⟩ := unlink_keeps (c.setSlot s none) en.key.hash s
  have hsize := size_remove c s
  have hfree' : (c.remove s).free = s :: c.free := by
    simp only [Cache.remove, hs, hfree]
    rfl
  refine ⟨hsize ▸ h.size_pos, ?_, fun t => ?_, ?_⟩
  · rw [hfree']
    refine List.nodup_cons.2 ⟨fun hmem => ?_, h.free_nodup⟩
    rw [h.mem_free, hs] at hmem
    cases hmem.2.2
  · rw [hfree', List.mem_cons, hsize, entry?_remove, h.mem_free]
    by_cases hst : s = t
    · subst hst; simp [hpos, hlt]
    · simp [hst, Ne.symm hst]
  · rw [entry?_remove, if_neg (Nat.ne_of_gt hpos), h.entry_zero]

/-! ## Eviction -/

/-- Some entries that may be evicted are gone, and nothing else changed. -/
structure Evicts (c c' : Cache) : Prop where
  scheme : c'.scheme = c.scheme
  entry : ∀ s, c'.entry? s = c.entry? s ∨
    c'.entry? s = none ∧ ∃ en, c.entry? s = some en ∧ en.isEvictable = true

theorem Evicts.of_slots {c c' : Cache} (hs : c'.scheme = c.scheme) (h : c'.slots = c.slots) : Evicts c c' :=
  ⟨hs, fun s => .inl (entry?_congr h s)⟩

theorem Evicts.trans {c c' c'' : Cache} (h : Evicts c c') (h' : Evicts c' c'') : Evicts c c'' := by
  refine ⟨h'.scheme.trans h.scheme, fun s => ?_⟩
  rcases h'.entry s with h1 | ⟨h1, en, hen, hev⟩
  · rw [h1]; exact h.entry s
  · rcases h.entry s with h2 | ⟨h2, -⟩
    · exact .inr ⟨h1, en, h2 ▸ hen, hev⟩
    · rw [h2] at hen; cases hen

/-- What is left was there. -/
theorem Evicts.entry_of_some {c c' : Cache} (h : Evicts c c') {s : Slot} {en : CacheEntry}
    (hs : c'.entry? s = some en) : c.entry? s = some en := by
  rcases h.entry s with he | ⟨he, -⟩
  · rw [← he, hs]
  · rw [he] at hs; cases hs

/-- An entry that may not be evicted stays. -/
theorem Evicts.keeps {c c' : Cache} (h : Evicts c c') {s : Slot} {en : CacheEntry} (hs : c.entry? s = some en)
    (hen : en.isEvictable = false) : c'.entry? s = some en := by
  rcases h.entry s with he | ⟨-, en', hs', hev⟩
  · rw [he, hs]
  · rw [hs, Option.some_inj] at hs'
    rw [← hs', hen] at hev
    cases hev

theorem remove_evicts {c : Cache} {s : Slot} (h : ∀ en, c.entry? s = some en → en.isEvictable = true) :
    Evicts c (c.remove s) := by
  refine ⟨scheme_remove .., fun t => ?_⟩
  rw [entry?_remove]
  split
  · rename_i hst
    subst hst
    rcases hs : c.entry? s with _ | en
    · exact .inl rfl
    · exact .inr ⟨rfl, en, rfl, h en hs⟩
  · exact .inl rfl

/-- One step of eviction. -/
def evictOne (c : Cache) (s : Slot) : Cache :=
  { c.remove s with stats := { (c.remove s).stats with evicted := (c.remove s).stats.evicted + 1 } }

theorem evict_cons (c : Cache) (target : Nat) (s : Slot) (slots : List Slot) :
    c.evict target (s :: slots) = if c.stats.bytes ≤ target then c else (c.evictOne s).evict target slots := rfl

theorem entry?_evictOne (c : Cache) (s t : Slot) :
    entry? (c.evictOne s) t = if s = t then none else c.entry? t := entry?_remove c s t

theorem evict_evicts (target : Nat) : ∀ (slots : List Slot) {c : Cache},
    (∀ s ∈ slots, ∀ en, c.entry? s = some en → en.isEvictable = true) → Evicts c (c.evict target slots)
  | [], c, _ => .of_slots rfl rfl
  | s :: slots, c, h => by
    rw [evict_cons]
    split
    · exact .of_slots rfl rfl
    · rw [List.forall_mem_cons] at h
      have h1 : Evicts c (c.evictOne s) := (remove_evicts h.1).trans (.of_slots rfl rfl)
      exact h1.trans (evict_evicts target slots fun t ht en hen => h.2 t ht en (h1.entry_of_some hen))

theorem WF.evict (target : Nat) : ∀ (slots : List Slot) {c : Cache}, c.WF → (c.evict target slots).WF
  | [], _, h => h
  | s :: slots, c, h => by
    rw [evict_cons]
    split
    · exact h
    · exact WF.evict target slots ((h.remove s).congr rfl rfl)

/-- Every candidate for eviction may be evicted. -/
theorem mem_candidates {c : Cache} {s : Slot} (h : s ∈ c.candidates) :
    ∀ en, c.entry? s = some en → en.isEvictable = true := by
  simp only [candidates, List.mem_map] at h
  obtain ⟨⟨t, en⟩, hmem, rfl⟩ := h
  rw [(sortBy_perm _ _).mem_iff, List.mem_filter, entries, List.mem_filterMap] at hmem
  obtain ⟨⟨u, -, hu⟩, hev⟩ := hmem
  rw [Option.map_eq_some_iff] at hu
  obtain ⟨en', hen', heq⟩ := hu
  cases heq
  intro en'' hen''
  rw [hen', Option.some_inj] at hen''
  exact hen'' ▸ hev

theorem enforceLimit_evicts (c : Cache) : Evicts c c.enforceLimit := by
  unfold enforceLimit
  split
  · exact evict_evicts _ _ fun _ hs => mem_candidates hs
  · exact .of_slots rfl rfl

theorem WF.enforceLimit {c : Cache} (h : c.WF) : c.enforceLimit.WF := by
  unfold Cache.enforceLimit
  split
  · exact h.evict _ _
  · exact h

theorem setLimits_evicts (c : Cache) (config : Config) : Evicts c (c.setLimits config) := by
  have h : Evicts c { c with caching := config.caching, maxBytes := config.maxBytes } := .of_slots rfl rfl
  exact h.trans (enforceLimit_evicts _)

theorem WF.setLimits {c : Cache} (h : c.WF) (config : Config) : (c.setLimits config).WF :=
  WF.enforceLimit (h.congr rfl rfl)

/-! ## Counts -/

theorem entry?_storeCount (c : Cache) (s t : Slot) (n : Nat) :
    entry? (c.storeCount s n) t = if s = t then c.entry? t |>.map (·.setCount n c.clock) else c.entry? t := by
  unfold storeCount
  split
  · rename_i hs
    split
    · rename_i h; rw [← h, hs]; rfl
    · rfl
  · rename_i en hs
    refine (entry?_setSlot c s t _).trans ?_
    by_cases hst : s = t
    · subst hst; simp [hs, lt_size_of_some hs]
    · simp [hst]

@[simp] theorem scheme_storeCount (c : Cache) (s : Slot) (n : Nat) : (c.storeCount s n).scheme = c.scheme := by
  unfold storeCount
  split <;> rfl

theorem WF.storeCount {c : Cache} (h : c.WF) (s : Slot) (n : Nat) : (c.storeCount s n).WF := by
  unfold Cache.storeCount
  split
  · exact h
  · exact (h.setSlot ‹_›).congr rfl rfl

theorem entry?_setDeletable (c : Cache) (s t : Slot) :
    entry? (c.setDeletable s) t = if s = t then c.entry? t |>.map (·.setDeletable) else c.entry? t := by
  unfold setDeletable
  split
  · rename_i hs
    split
    · rename_i h; rw [← h, hs]; rfl
    · rfl
  · rename_i en hs
    rw [entry?_setSlot]
    by_cases hst : s = t
    · subst hst; simp [hs, lt_size_of_some hs]
    · simp [hst]

theorem WF.setDeletable {c : Cache} (h : c.WF) (s : Slot) : (c.setDeletable s).WF := by
  unfold Cache.setDeletable
  split
  · exact h
  · exact h.setSlot ‹_›

/-- Releasing a slot leaves a solved entry, which may be evicted from now on, or nothing. -/
theorem entry?_release (c : Cache) (s t : Slot) :
    entry? (c.release s) t = if s = t then c.entry? t |>.bind fun en => if en.isSolved then some en.setDeletable else none
      else c.entry? t := by
  unfold release
  split
  · rename_i hs
    split
    · rename_i h; rw [← h, hs]; rfl
    · rfl
  · rename_i en hs
    split
    · rename_i hsolved
      rw [entry?_setDeletable]
      split
      · rename_i h; rw [← h, hs]; simp [hsolved]
      · rfl
    · rename_i hsolved
      refine (entry?_remove c s t).trans ?_
      split
      · rename_i h; rw [← h, hs]; simp [hsolved]
      · rfl

@[simp] theorem scheme_release (c : Cache) (s : Slot) : (c.release s).scheme = c.scheme := by
  unfold release
  split
  · rfl
  · split
    · unfold setDeletable; split <;> rfl
    · exact scheme_remove c s

theorem WF.release {c : Cache} (h : c.WF) (s : Slot) : (c.release s).WF := by
  unfold Cache.release
  split
  · exact h
  · split
    · exact h.setDeletable s
    · exact (h.remove s).congr rfl rfl

/-! ## Lookup and storing -/

/-- A count that is found is the count of an entry with the key. -/
theorem find?_eq_some {c : Cache} {key : PackedKey} {n : Nat} (h : c.find? key = some n) :
    ∃ s en, c.entry? s = some en ∧ en.key = key ∧ en.count = some n := by
  obtain ⟨s, -, hs⟩ := List.exists_of_findSome?_eq_some h
  rw [Option.bind_eq_some_iff] at hs
  obtain ⟨en, hen, hn⟩ := hs
  split at hn
  · exact ⟨s, en, hen, ‹_›, hn⟩
  · cases hn

/-- A lookup changes no entry. -/
theorem lookup_keeps (c : Cache) (key : PackedKey) :
    (c.lookup key).2.slots = c.slots ∧ (c.lookup key).2.free = c.free ∧ (c.lookup key).2.scheme = c.scheme ∧
      (c.lookup key).2.caching = c.caching ∧ ∀ n, (c.lookup key).1 = some n → c.find? key = some n := by
  unfold lookup
  split
  · exact ⟨rfl, rfl, rfl, rfl, fun _ h => h⟩
  · exact ⟨rfl, rfl, rfl, rfl, fun _ h => by cases h⟩

/-- An unsolved entry for the key is in a slot that was empty; otherwise entries were evicted at most. -/
structure Stores (c : Cache) (key : PackedKey) (s : Slot) (c' : Cache) : Prop where
  scheme : c'.scheme = c.scheme
  wf : c.WF → c'.WF
  fresh : c.WF → c.entry? s = none
  stored : c.WF → ∃ en, c'.entry? s = some en ∧ en.key = key ∧ en.count = none ∧ en.deletable = false
  solved : ∀ t en n, c'.entry? t = some en → en.count = some n → c.entry? t = some en
  keeps : ∀ t en, c.entry? t = some en → en.isEvictable = false → t ≠ s → c'.entry? t = some en
  origin : ∀ t en, c'.entry? t = some en → t = s ∨ c.entry? t = some en

theorem place_spec (c : Cache) (en : CacheEntry) :
    (c.place en).2.scheme = c.scheme ∧
    (c.WF → (c.place en).2.WF ∧ c.entry? (c.place en).1 = none ∧ entry? (c.place en).2 (c.place en).1 = some en) ∧
    (∀ t, entry? (c.place en).2 t = c.entry? t ∨ t = (c.place en).1 ∧ entry? (c.place en).2 t = some en) := by
  unfold place
  split
  · rename_i s free hfree
    -- The slot that was emptied last is filled again.
    have he : ∀ t, entry? { c with free } t = c.entry? t := fun _ => rfl
    refine ⟨rfl, fun h => ?_, fun t => ?_⟩
    · obtain ⟨hpos, hlt, hnone⟩ := (h.mem_free s).1 (hfree ▸ List.mem_cons_self ..)
      have hnd := h.free_nodup
      rw [hfree, List.nodup_cons] at hnd
      refine ⟨⟨?_, hnd.2, fun t => ?_, ?_⟩, hnone, ?_⟩
      · simpa [Cache.setSlot] using h.size_pos
      · rw [entry?_setSlot]
        show t ∈ free ↔ 0 < t ∧ t < (c.slots.setIfInBounds s (some en)).size ∧ _
        rw [Array.size_setIfInBounds]
        by_cases hst : s = t
        · subst hst
          simp [hnd.1, hlt]
        · have hmem := h.mem_free t
          rw [hfree, List.mem_cons] at hmem
          rw [if_neg fun h => hst h.1, he, ← hmem]
          exact (or_iff_right (Ne.symm hst)).symm
      · rw [entry?_setSlot, if_neg fun h => Nat.ne_of_gt hpos h.1]
        exact h.entry_zero
      · rw [entry?_setSlot, if_pos ⟨rfl, hlt⟩]
    · rw [entry?_setSlot]
      split
      · rename_i h; exact .inr ⟨h.1.symm, rfl⟩
      · exact .inl rfl
  · rename_i hfree
    -- No slot is empty, so a new one is made.
    have he : ∀ t, entry? { c with slots := c.slots.push (some en) } t =
        if t = c.slots.size then some en else c.entry? t := fun t => by
      simp only [Array.getD_eq_getD_getElem?, Array.getElem?_push, entry?]
      split <;> simp
    refine ⟨rfl, fun h => ⟨⟨by simp, h.free_nodup, fun t => ?_, ?_⟩, entry?_of_size_le (Nat.le_refl _), ?_⟩, fun t => ?_⟩
    · rw [he]
      show t ∈ c.free ↔ 0 < t ∧ t < (c.slots.push (some en)).size ∧ _
      rw [h.mem_free, Array.size_push]
      split
      · rename_i ht; simp [ht]
      · rename_i ht
        exact and_congr_right fun _ => and_congr_left fun _ =>
          ⟨Nat.lt_succ_of_lt, fun hlt => Nat.lt_of_le_of_ne (Nat.le_of_lt_succ hlt) ht⟩
    · rw [he, if_neg (Nat.ne_of_lt h.size_pos), h.entry_zero]
    · exact (he _).trans (if_pos rfl)
    · rw [he]
      split
      · exact .inr ⟨‹_›, rfl⟩
      · exact .inl rfl

/-- The entry that is stored for a key. -/
def newEntry (c : Cache) (key : PackedKey) (parent : Option Slot) : CacheEntry := { key, parent, created := c.clock }

/-- The cache with a new entry, before anything is evicted for it. -/
def put (c : Cache) (key : PackedKey) (parent : Option Slot) : Cache :=
  let placed := c.place (c.newEntry key parent)
  let c' := placed.2.link key.hash placed.1
  { c' with stats := { c'.stats with
      stored := c'.stats.stored + 1
      bytes := c'.stats.bytes + (c.newEntry key parent).byteSize } }

theorem store_eq (c : Cache) (key : PackedKey) (parent : Option Slot) :
    c.store key parent = ((c.place (c.newEntry key parent)).1, (c.put key parent).enforceLimit) := rfl

theorem entry?_put {c : Cache} (h : c.WF) (key : PackedKey) (parent : Option Slot) (t : Slot) :
    entry? (c.put key parent) t =
      if t = (c.store key parent).1 then some (c.newEntry key parent) else c.entry? t := by
  obtain ⟨-, hwf, hentry⟩ := place_spec c (c.newEntry key parent)
  split
  · rename_i ht
    exact ht ▸ (hwf h).2.2
  · rename_i ht
    exact (hentry t).resolve_right fun h' => ht h'.1

theorem WF.put {c : Cache} (h : c.WF) (key : PackedKey) (parent : Option Slot) : (c.put key parent).WF :=
  ((place_spec c (c.newEntry key parent)).2.1 h).1.congr rfl rfl

theorem store_stores (c : Cache) (key : PackedKey) (parent : Option Slot) :
    Stores c key (c.store key parent).1 (c.store key parent).2 := by
  let en := c.newEntry key parent
  obtain ⟨hscheme, hwf, hentry⟩ := place_spec c en
  -- Linking and counting the bytes leave the slots alone.
  have hlinked : ∀ t, entry? (c.put key parent) t = entry? (c.place en).2 t := fun _ => rfl
  have hev := enforceLimit_evicts (c.put key parent)
  rw [store_eq]
  refine ⟨hev.scheme.trans hscheme, fun h => WF.enforceLimit (h.put key parent), fun h => (hwf h).2.1,
    fun h => ⟨en, hev.keeps ((hlinked _).trans (hwf h).2.2) rfl, rfl, rfl, rfl⟩, fun t en' n ht hn => ?_,
    fun t en' ht hen hts => ?_, fun t en' ht => ?_⟩
  · have ht' := hev.entry_of_some ht
    rw [hlinked] at ht'
    rcases hentry t with h | ⟨-, h⟩
    · rw [← h, ht']
    · rw [h, Option.some_inj] at ht'
      subst ht'
      cases hn
  · refine hev.keeps ((hlinked t).trans ?_) hen
    exact ((hentry t).resolve_right fun h => hts h.1).trans ht
  · have ht' := hev.entry_of_some ht
    rw [hlinked] at ht'
    rcases hentry t with h | ⟨h, -⟩
    · exact .inr (h.symm.trans ht')
    · exact .inl h

end Cache

end ModelCount
