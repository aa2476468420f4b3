/-
The accounts of a cache. The statistics are kept step by step; after any operations they are what the
stored entries add up to, so nothing is ever taken off that is not there. Each entry tells how many
lookups there were between storing it and its count.
-/
import Mathlib.Algebra.BigOperators.Group.Finset.Basic
import Mathlib.Algebra.Order.BigOperators.Group.List
import Mathlib.Data.Nat.Digits.Lemmas
import ModelCount.Proofs.Cache.Lookup

namespace ModelCount

/-- The bytes of a count are those of its digits of 64 bits. -/
theorem countBytes_eq (n : Nat) : countBytes n = 8 * (Nat.digits (2 ^ 64) n).length := by
  unfold countBytes bitLength
  split
  · rename_i h
    simp [h]
  · rename_i h
    rw [Nat.length_digits _ _ (by decide) h, Nat.log_pow_left, Nat.log2_eq_log_two]
    omega

namespace CacheEntry

/-- The limbs of the count, of 64 bits each. -/
def limbs (en : CacheEntry) : Nat := (en.count.map fun n => (Nat.digits (2 ^ 64) n).length).getD 0

theorem byteSize_eq (en : CacheEntry) : en.byteSize = 84 + 4 * en.key.words.size + 8 * en.limbs := by
  obtain ⟨key, parent, created, count, ticks, deletable⟩ := en
  rcases count with _ | n
  · rfl
  · simp [byteSize, limbs, overhead, PackedKey.byteSize, countBytes_eq]

/-! ## Ticks and mark in one word -/

/-- The word with the mark in its lowest bit and the ticks above it. -/
def word (en : CacheEntry) : UInt64 := UInt64.ofNat en.ticks <<< 1 ||| if en.deletable then 1 else 0

theorem toNat_word (en : CacheEntry) :
    en.word.toNat = 2 * (en.ticks % 2 ^ 63) + if en.deletable then 1 else 0 := by
  have hticks : (UInt64.ofNat en.ticks <<< 1).toNat = (en.ticks % 2 ^ 63) <<< 1 := by
    rw [UInt64.toNat_shiftLeft]
    show UInt64.toNat (UInt64.ofNat en.ticks) <<< 1 % 2 ^ 64 = _
    rw [UInt64.toNat_ofNat', Nat.shiftLeft_eq, Nat.shiftLeft_eq]
    omega
  have hmark : (if en.deletable then 1 else 0 : UInt64).toNat = if en.deletable then 1 else 0 := by
    cases en.deletable <;> rfl
  rw [word, UInt64.toNat_or, hticks, hmark, ← Nat.shiftLeft_add_eq_or_of_lt (by split <;> decide), Nat.shiftLeft_eq]
  omega

theorem word_ticks (en : CacheEntry) (h : en.ticks < 2 ^ 63) : (en.word >>> 1).toNat = en.ticks := by
  rw [UInt64.toNat_shiftRight, toNat_word, Nat.mod_eq_of_lt h]
  show (2 * en.ticks + if en.deletable then 1 else 0) >>> 1 = _
  rw [Nat.shiftRight_eq_div_pow]
  split <;> omega

theorem word_deletable (en : CacheEntry) : en.word &&& 1 = if en.deletable then 1 else 0 := by
  apply UInt64.toNat_inj.1
  rw [UInt64.toNat_and, toNat_word]
  show _ &&& 1 = _
  rw [Nat.and_one_is_mod]
  cases en.deletable <;> simp

theorem word_setDeletable (en : CacheEntry) : en.setDeletable.word = en.word ||| 1 := by
  rw [word, word, UInt64.or_assoc]
  cases h : en.deletable <;> simp [CacheEntry.setDeletable]

theorem word_setCount (en : CacheEntry) (n time : Nat) :
    (en.setCount n time).word = UInt64.ofNat (time - en.created) <<< 1 ||| (en.word &&& 1) := by
  rw [word_deletable]
  rfl

end CacheEntry

namespace Cache

/-! ## Sums over the stored entries -/

/-- The sum of a weight of the stored entries. -/
def total (c : Cache) (w : CacheEntry → Nat) : Nat := (c.entries.map fun p => w p.2).sum

theorem total_eq_sum (c : Cache) (w : CacheEntry → Nat) {n : Nat} (hn : c.slots.size ≤ n) :
    c.total w = ∑ s ∈ Finset.range n, (c.entry? s).elim 0 w := by
  have key : ∀ xs : List Nat, ((xs.filterMap fun s => (c.entry? s).map (s, ·)).map fun p => w p.2).sum =
      (xs.map fun s => (c.entry? s).elim 0 w).sum := by
    intro xs
    induction xs with
    | nil => rfl
    | cons s xs ih =>
      rcases hs : c.entry? s with _ | en <;> simp [hs, ih]
  refine (key _).trans (Finset.sum_subset (Finset.range_mono hn) fun s _ hs => ?_)
  rw [entry?_of_size_le (by simpa using hs)]
  rfl

theorem sum_range_exchange {f f' : Nat → Nat} {n s : Nat} (hs : s < n) (h : ∀ t, t ≠ s → f' t = f t) :
    ∑ t ∈ Finset.range n, f' t + f s = ∑ t ∈ Finset.range n, f t + f' s := by
  have hmem : s ∈ Finset.range n := Finset.mem_range.2 hs
  have hrest : ∑ t ∈ (Finset.range n).erase s, f' t = ∑ t ∈ (Finset.range n).erase s, f t :=
    Finset.sum_congr rfl fun t ht => h t (Finset.ne_of_mem_erase ht)
  rw [← Finset.add_sum_erase _ f hmem, ← Finset.add_sum_erase _ f' hmem, hrest]
  omega

/-- Changing one slot changes the sum by what came into the slot and what went. -/
theorem total_exchange (c c' : Cache) (w : CacheEntry → Nat) (s : Nat) (h : ∀ t, t ≠ s → c'.entry? t = c.entry? t) :
    c'.total w + (c.entry? s).elim 0 w = c.total w + (c'.entry? s).elim 0 w := by
  have hs : s < c.slots.size + c'.slots.size + s + 1 := by omega
  rw [c.total_eq_sum w (show c.slots.size ≤ c.slots.size + c'.slots.size + s + 1 by omega),
    c'.total_eq_sum w (show c'.slots.size ≤ c.slots.size + c'.slots.size + s + 1 by omega)]
  exact @sum_range_exchange (fun t => (c.entry? t).elim 0 w) (fun t => (c'.entry? t).elim 0 w) _ _ hs
    fun t ht => by rw [h t ht]

theorem le_total {c : Cache} {s : Slot} {en : CacheEntry} (h : c.entry? s = some en) (w : CacheEntry → Nat) :
    w en ≤ c.total w :=
  List.le_sum_of_mem (List.mem_map.2 ⟨(s, en), mem_entries.2 h, rfl⟩)

/-- The size is the number of stored entries: what is not free and not slot 0 is stored. -/
theorem WF.size_eq {c : Cache} (h : c.WF) : c.size = c.entries.length := by
  have hempty : ((List.range c.slots.size).filter fun s => !c.hasEntry s).Perm (0 :: c.free) := by
    refine (List.perm_ext_iff_of_nodup (List.nodup_range.filter _) (List.nodup_cons.2 ⟨?_, h.free_nodup⟩)).2 fun s => ?_
    · rw [h.mem_free]
      exact fun h0 => Nat.lt_irrefl 0 h0.1
    · have hzero := h.entry_zero
      have hpos := h.size_pos
      simp only [List.mem_filter, List.mem_range, List.mem_cons, h.mem_free, hasEntry, Bool.not_eq_true',
        Option.isSome_eq_false_iff, Option.isNone_iff_eq_none]
      rcases Nat.eq_zero_or_pos s with rfl | hs
      · simp [hzero, hpos]
      · simp [hs, Nat.ne_of_gt hs]
  have hsplit := @List.length_eq_length_filter_add _ (List.range c.slots.size) c.hasEntry
  rw [List.length_range, hempty.length_eq, List.length_cons, ← c.entries_map_fst, List.length_map] at hsplit
  rw [size]
  omega

theorem total_one (c : Cache) : c.total (fun _ => 1) = c.entries.length := by
  simp [total]

/-! ## What a step does to the statistics -/

theorem stats_put (c : Cache) (key : PackedKey) (parent : Option Slot) :
    (c.put key parent).stats = { c.stats with
      stored := c.stats.stored + 1
      bytes := c.stats.bytes + (c.newEntry key parent).byteSize } ∧ (c.put key parent).clock = c.clock := by
  have h : ∀ en, (c.place en).2.stats = c.stats ∧ (c.place en).2.clock = c.clock := fun en => by
    unfold place
    split <;> exact ⟨rfl, rfl⟩
  simp only [put, link, h, and_self]

theorem total_put {c : Cache} (h : c.WF) (key : PackedKey) (parent : Option Slot) (w : CacheEntry → Nat) :
    (c.put key parent).total w = c.total w + w (c.newEntry key parent) := by
  have hold := (store_stores c key parent).fresh h
  have hnew := entry?_put h key parent (c.store key parent).1
  have hex := total_exchange c (c.put key parent) w (c.store key parent).1
    fun t ht => by rw [entry?_put h, if_neg ht]
  rw [if_pos rfl] at hnew
  simpa only [hold, hnew, Option.elim_none, Option.elim_some, Nat.add_zero] using hex

theorem remove_of_entry {c : Cache} {s : Slot} {en : CacheEntry} (h : c.entry? s = some en) :
    (c.remove s).stats = { c.stats with bytes := c.stats.bytes - en.byteSize } ∧ (c.remove s).clock = c.clock := by
  simp only [remove, h, unlink]
  split <;> exact ⟨rfl, rfl⟩

theorem total_remove {c : Cache} {s : Slot} {en : CacheEntry} (h : c.entry? s = some en) (w : CacheEntry → Nat) :
    (c.remove s).total w + w en = c.total w := by
  have hex := total_exchange c (c.remove s) w s fun t ht => by rw [entry?_remove, if_neg ht.symm]
  simpa only [entry?_remove, h, if_true, Option.elim_none, Option.elim_some, Nat.add_zero] using hex

theorem total_setSlot {c : Cache} {s : Slot} {en : CacheEntry} (h : c.entry? s = some en) (en' : CacheEntry) (w : CacheEntry → Nat) :
    (c.setSlot s (some en')).total w + w en = c.total w + w en' := by
  have hlt := lt_size_of_some h
  have hex := total_exchange c (c.setSlot s (some en')) w s fun t ht => by
    rw [entry?_setSlot, if_neg fun hst => ht hst.1.symm]
  simpa only [entry?_setSlot, h, hlt, and_self, if_true, Option.elim_some] using hex

theorem total_of_slots {c c' : Cache} (h : c'.slots = c.slots) (w : CacheEntry → Nat) : c'.total w = c.total w := by
  have hent : c'.entries = c.entries := by
    simp only [entries, h, entry?_congr h]
  rw [total, hent, total]

/-! ## The invariant -/

/-- The statistics are what the stored entries add up to. -/
structure Accounted (c : Cache) : Prop where
  bytes : c.stats.bytes = c.total CacheEntry.byteSize
  stored : c.stats.stored = c.stats.evicted + c.stats.discarded + c.total fun _ => 1
  hits : c.stats.hits ≤ c.stats.lookups
  lookups : c.stats.lookups = c.clock
  created : ∀ s en, c.entry? s = some en → en.created ≤ c.clock

theorem accounted_new (scheme : PackingScheme) (config : Config) : (new scheme config).Accounted := by
  refine ⟨rfl, rfl, Nat.le_refl _, rfl, fun s en hs => ?_⟩
  have hlt := lt_size_of_some hs
  simp only [new, List.size_toArray, List.length_singleton, Nat.lt_one_iff] at hlt
  rw [hlt] at hs
  cases hs

/-- The limits do not matter. -/
theorem Accounted.congr {c c' : Cache} (h : c.Accounted) (hslots : c'.slots = c.slots) (hstats : c'.stats = c.stats)
    (hclock : c'.clock = c.clock) : c'.Accounted := by
  refine ⟨?_, ?_, ?_, ?_, fun s en hs => ?_⟩
  · rw [hstats, total_of_slots hslots, h.bytes]
  · rw [hstats, total_of_slots hslots, h.stored]
  · rw [hstats]
    exact h.hits
  · rw [hstats, hclock, h.lookups]
  · rw [hclock]
    exact h.created s en (entry?_congr hslots s ▸ hs)

theorem Accounted.put {c : Cache} (h : c.Accounted) (hwf : c.WF) (key : PackedKey) (parent : Option Slot) :
    (c.put key parent).Accounted := by
  obtain ⟨hstats, hclock⟩ := c.stats_put key parent
  refine ⟨?_, ?_, ?_, ?_, fun s en hs => ?_⟩
  · rw [hstats, total_put hwf, ← h.bytes]
  · rw [hstats, total_put hwf]
    show c.stats.stored + 1 = _
    rw [h.stored, Nat.add_assoc]
  · rw [hstats]
    exact h.hits
  · rw [hstats, hclock]
    exact h.lookups
  · rw [hclock]
    rw [entry?_put hwf] at hs
    split at hs
    · cases hs
      exact Nat.le_refl _
    · exact h.created s en hs

/-- One entry is gone, and is counted among the evicted or the discarded ones. -/
theorem Accounted.remove {c c' : Cache} (h : c.Accounted) {s : Slot} (hs : c.hasEntry s = true)
    (hslots : c'.slots = (c.remove s).slots) (hclock : c'.clock = (c.remove s).clock)
    (hstats : c'.stats = { (c.remove s).stats with evicted := (c.remove s).stats.evicted + 1 } ∨
      c'.stats = { (c.remove s).stats with discarded := (c.remove s).stats.discarded + 1 }) : c'.Accounted := by
  obtain ⟨en, hs⟩ := hasEntry_iff.1 hs
  obtain ⟨hremove, hclock'⟩ := remove_of_entry hs
  have hbytes := total_remove hs CacheEntry.byteSize
  have hcount := total_remove hs fun _ => 1
  have hb := h.bytes
  have hst := h.stored
  have hh := h.hits
  have hl := h.lookups
  refine ⟨?_, ?_, ?_, ?_, fun t en' ht => ?_⟩
  · rw [total_of_slots hslots]
    rcases hstats with hstats | hstats <;> simp only [hstats, hremove] <;> omega
  · rw [total_of_slots hslots]
    rcases hstats with hstats | hstats <;> simp only [hstats, hremove] <;> omega
  · rcases hstats with hstats | hstats <;> simp only [hstats, hremove] <;> exact hh
  · rcases hstats with hstats | hstats <;> simp only [hstats, hremove, hclock, hclock'] <;> exact hl
  · rw [hclock, hclock']
    rw [entry?_congr hslots, entry?_remove] at ht
    split at ht
    · cases ht
    · exact h.created t en' ht

theorem Accounted.evictOne {c : Cache} (h : c.Accounted) {s : Slot} (hs : c.hasEntry s = true) :
    (c.evictOne s).Accounted :=
  h.remove hs rfl rfl (.inl rfl)

theorem Accounted.compact {c : Cache} (h : c.Accounted) : c.compact.Accounted :=
  compact_induct (fun _ _ hs h => h.evictOne hs) h

theorem Accounted.enforceLimit {c : Cache} (h : c.Accounted) : c.enforceLimit.Accounted :=
  enforceLimit_induct (fun _ _ hs h => h.evictOne hs) h

/-- An entry is replaced by one as old, and the bytes are adjusted. -/
theorem Accounted.setSlot {c c' : Cache} (h : c.Accounted) {s : Slot} {en : CacheEntry}
    (hs : c.entry? s = some en) (en' : CacheEntry) (hcreated : en'.created = en.created)
    (hslots : c'.slots = (c.setSlot s (some en')).slots) (hclock : c'.clock = c.clock)
    (hstats : c'.stats = { c.stats with bytes := c.stats.bytes - en.byteSize + en'.byteSize }) : c'.Accounted := by
  have hle := le_total hs CacheEntry.byteSize
  have hbytes := total_setSlot hs en' CacheEntry.byteSize
  have hcount := total_setSlot hs en' fun _ => 1
  have hb := h.bytes
  have hst := h.stored
  refine ⟨?_, ?_, ?_, ?_, fun t en₁ ht => ?_⟩
  · rw [total_of_slots hslots, hstats]
    show c.stats.bytes - en.byteSize + en'.byteSize = _
    omega
  · rw [total_of_slots hslots, hstats]
    show c.stats.stored = c.stats.evicted + c.stats.discarded + _
    omega
  · rw [hstats]
    exact h.hits
  · rw [hstats, hclock]
    exact h.lookups
  · rw [hclock]
    rw [entry?_congr hslots, entry?_setSlot] at ht
    split at ht
    · cases ht
      rw [hcreated]
      exact h.created s en hs
    · exact h.created t en₁ ht

theorem Accounted.setDeletable {c : Cache} (h : c.Accounted) (s : Slot) : (c.setDeletable s).Accounted := by
  unfold Cache.setDeletable
  split
  · exact h
  · rename_i en hs
    refine h.setSlot hs en.setDeletable rfl rfl rfl ?_
    have hle := le_total hs CacheEntry.byteSize
    have hsame : en.setDeletable.byteSize = en.byteSize := rfl
    rw [hsame, Nat.sub_add_cancel (h.bytes ▸ hle)]
    rfl

theorem Accounted.storeCount {c : Cache} (h : c.Accounted) (s : Slot) (n : Nat) : (c.storeCount s n).Accounted := by
  unfold Cache.storeCount
  split
  · exact h
  · rename_i en hs
    exact h.setSlot hs (en.setCount n c.clock) rfl rfl rfl rfl

theorem Accounted.release {c : Cache} (h : c.Accounted) (s : Slot) : (c.release s).Accounted := by
  unfold Cache.release
  split
  · exact h
  · rename_i en hs
    split
    · exact h.setDeletable s
    · exact h.remove (hasEntry_iff.2 ⟨en, hs⟩) rfl rfl (.inr rfl)

theorem Accounted.lookup {c : Cache} (h : c.Accounted) (key : PackedKey) : (c.lookup key).2.Accounted := by
  unfold Cache.lookup
  split
  · refine ⟨h.bytes, h.stored, ?_, congrArg (· + 1) h.lookups, fun s en hs => Nat.le_succ_of_le (h.created s en hs)⟩
    show (if (c.find? key).isSome then c.stats.hits + 1 else c.stats.hits) ≤ c.stats.lookups + 1
    split
    · exact Nat.succ_le_succ h.hits
    · exact Nat.le_succ_of_le h.hits
  · exact h

theorem Accounted.apply {c : Cache} (h : c.Accounted) (hwf : c.WF) (op : Op) : (op.apply c).Accounted := by
  cases op with
  | store key parent => exact (h.put hwf key parent).enforceLimit
  | storeCount s n => exact h.storeCount s n
  | release s => exact h.release s
  | setDeletable s => exact h.setDeletable s
  | compact => exact h.compact
  | setLimits config => exact Accounted.enforceLimit (h.congr rfl rfl rfl)
  | answer level key =>
    rw [Op.apply, lookup_snd]
    exact h.lookup key

/-! ## Subtractions -/

/-- The bytes of the entry in a slot can be taken off, and its age can be told. -/
def Covers (c : Cache) (s : Slot) : Prop :=
  ∀ en, c.entry? s = some en → en.byteSize ≤ c.stats.bytes ∧ en.created ≤ c.clock

/-- Every entry that an eviction removes is covered when it is removed. -/
def EvictCovers (target : Nat) : List Slot → Cache → Prop
  | [], _ => True
  | s :: slots, c => c.stats.bytes ≤ target ∨ c.Covers s ∧ EvictCovers target slots (c.evictOne s)

def CompactCovers (c : Cache) : Prop := EvictCovers (c.maxBytes / 2) c.candidates c

def LimitCovers (c : Cache) : Prop := c.maxBytes < c.stats.bytes → c.CompactCovers

/-- No subtraction of an operation goes below zero. -/
def Op.Covered (c : Cache) : Op → Prop
  | .store key parent => (c.put key parent).LimitCovers
  | .storeCount s _ => c.Covers s
  | .release s => c.Covers s
  | .setDeletable _ => True
  | .compact => c.CompactCovers
  | .setLimits config => LimitCovers { c with caching := config.caching, maxBytes := config.maxBytes }
  | .answer .. => True

theorem Accounted.covers {c : Cache} (h : c.Accounted) (s : Slot) : c.Covers s :=
  fun en hs => ⟨h.bytes ▸ le_total hs CacheEntry.byteSize, h.created s en hs⟩

theorem Accounted.evictCovers (target : Nat) : ∀ (slots : List Slot) {c : Cache}, c.Accounted → slots.Nodup →
    (∀ s ∈ slots, c.hasEntry s = true) → EvictCovers target slots c
  | [], _, _, _, _ => trivial
  | s :: slots, c, h, hnd, hall => by
    obtain ⟨hs, hall⟩ := List.forall_mem_cons.1 hall
    obtain ⟨hnot, hnd⟩ := List.nodup_cons.1 hnd
    refine .inr ⟨h.covers s, (h.evictOne hs).evictCovers target slots hnd fun t ht => ?_⟩
    rw [hasEntry, entry?_evictOne, if_neg fun hst : s = t => hnot (hst ▸ ht)]
    exact hall t ht

theorem Accounted.compactCovers {c : Cache} (h : c.Accounted) : c.CompactCovers :=
  h.evictCovers _ _ c.candidates_nodup fun _ => hasEntry_of_mem_candidates

theorem Accounted.covered {c : Cache} (h : c.Accounted) (hwf : c.WF) (op : Op) : op.Covered c := by
  cases op with
  | store key parent => exact fun _ => (h.put hwf key parent).compactCovers
  | storeCount s n => exact h.covers s
  | release s => exact h.covers s
  | setDeletable s => trivial
  | compact => exact h.compactCovers
  | setLimits config => exact fun _ => Accounted.compactCovers (h.congr rfl rfl rfl)
  | answer level key => trivial

/-! ## Ticks -/

/-- The times of an entry are those of its record. -/
def Record.Tells (record : Record) (en : CacheEntry) : Prop :=
  en.created = record.storedAt ∧
  match record.countedAt with
  | none => en.count = none ∧ en.ticks = 0
  | some t => en.isSolved = true ∧ record.storedAt ≤ t ∧ en.ticks = t - record.storedAt

/-- Every stored entry has a record, and no more ticks than there were lookups. -/
def Timed (c : Cache) (h : History) : Prop :=
  ∀ s en, c.entry? s = some en → (∃ record ∈ h.records, record.slot = s ∧ record.Tells en) ∧ en.ticks ≤ h.lookups

/-- Entries may go, and may be marked. -/
theorem Timed.of_entries {c c' : Cache} {h : History} (ht : Timed c h)
    (hentry : ∀ s en, c'.entry? s = some en → ∃ en', c.entry? s = some en' ∧ (en = en' ∨ en = en'.setDeletable)) :
    Timed c' h := by
  intro s en hs
  obtain ⟨en', hs', rfl | rfl⟩ := hentry s en hs
  · exact ht s en hs'
  · -- The mark is neither a time nor a count.
    exact ht s en' hs'

theorem Timed.evicts {c c' : Cache} {h : History} (ht : Timed c h) (hev : Evicts c c') : Timed c' h :=
  ht.of_entries fun _ en hs => ⟨en, hev.entry_of_some hs, .inl rfl⟩

theorem Timed.keep {c : Cache} {h : History} (ht : Timed c h) : Timed c (h.keep c) := by
  intro s en hs
  obtain ⟨⟨record, hmem, rfl, htells⟩, hle⟩ := ht s en hs
  exact ⟨⟨record, List.mem_filter.2 ⟨hmem, hasEntry_iff.2 ⟨en, hs⟩⟩, rfl, htells⟩, hle⟩

theorem Timed.put {c : Cache} {h : History} (ht : Timed c h) (hwf : c.WF) (hclock : c.clock = h.lookups)
    (key : PackedKey) (parent : Option Slot) : Timed (c.put key parent) (h.note c (.store key parent)) := by
  intro s en hs
  rw [entry?_put hwf] at hs
  split at hs
  · rename_i hnew
    cases hs
    refine ⟨⟨_, List.mem_append_right _ (List.mem_singleton_self _), hnew.symm, hclock, rfl, rfl⟩, Nat.zero_le _⟩
  · obtain ⟨⟨record, hmem, hslot, htells⟩, hle⟩ := ht s en hs
    exact ⟨⟨record, List.mem_append_left _ hmem, hslot, htells⟩, hle⟩

theorem Timed.storeCount {c : Cache} {h : History} (ht : Timed c h) (ha : c.Accounted) (hclock : c.clock = h.lookups)
    (s : Slot) (n : Nat) : Timed (c.storeCount s n) (h.note c (.storeCount s n)) := by
  intro t en hs
  rw [entry?_storeCount] at hs
  split at hs
  · rename_i hst
    obtain ⟨en', hs', rfl⟩ := Option.map_eq_some_iff.1 hs
    obtain ⟨⟨record, hmem, hslot, hcreated, -⟩, -⟩ := ht t en' hs'
    refine ⟨⟨_, List.mem_map_of_mem hmem, ?_⟩, ?_⟩
    · rw [if_pos (hslot.trans hst.symm)]
      refine ⟨hslot, hcreated, rfl, ?_, ?_⟩
      · rw [← hclock, ← hcreated]
        exact ha.created t en' hs'
      · rw [← hclock, ← hcreated]
        rfl
    · show c.clock - en'.created ≤ h.lookups
      rw [← hclock]
      exact Nat.sub_le _ _
  · rename_i hst
    obtain ⟨⟨record, hmem, hslot, htells⟩, hle⟩ := ht t en hs
    refine ⟨⟨_, List.mem_map_of_mem hmem, ?_⟩, hle⟩
    rw [if_neg fun h' => hst (h'.symm.trans hslot)]
    exact ⟨hslot, htells⟩

theorem Timed.apply {c : Cache} {h : History} (ht : Timed c h) (hwf : c.WF) (ha : c.Accounted)
    (hclock : c.clock = h.lookups) (op : Op) : Timed (op.apply c) (h.note c op) := by
  cases op with
  | store key parent => exact (ht.put hwf hclock key parent).evicts (enforceLimit_evicts _)
  | storeCount s n => exact ht.storeCount ha hclock s n
  | release s =>
    refine ht.of_entries fun t en hs => ?_
    rw [Op.apply, entry?_release] at hs
    split at hs
    · obtain ⟨en', hs', hen⟩ := Option.bind_eq_some_iff.1 hs
      split at hen
      · cases hen
        exact ⟨en', hs', .inr rfl⟩
      · cases hen
    · exact ⟨en, hs, .inl rfl⟩
  | setDeletable s =>
    refine ht.of_entries fun t en hs => ?_
    rw [Op.apply, entry?_setDeletable] at hs
    split at hs
    · obtain ⟨en', hs', rfl⟩ := Option.map_eq_some_iff.1 hs
      exact ⟨en', hs', .inr rfl⟩
    · exact ⟨en, hs, .inl rfl⟩
  | compact => exact ht.evicts (evict_evicts _ _ fun _ hs => mem_candidates hs)
  | setLimits config => exact ht.evicts (setLimits_evicts c config)
  | answer level key =>
    obtain ⟨hslots, -⟩ := lookup_keeps c key
    intro s en hs
    rw [Op.apply, lookup_snd, entry?_congr hslots] at hs
    obtain ⟨hrecord, hle⟩ := ht s en hs
    refine ⟨hrecord, hle.trans ?_⟩
    simp only [History.note]
    split
    · exact Nat.le_succ _
    · exact Nat.le_refl _

/-! ## Whole runs -/

theorem clock_evictOne {c : Cache} {s : Slot} {time : Nat} (hs : c.hasEntry s = true) (h : c.clock = time) :
    (c.evictOne s).clock = time := by
  obtain ⟨en, hs⟩ := hasEntry_iff.1 hs
  exact (remove_of_entry hs).2.trans h

@[simp] theorem clock_setDeletable (c : Cache) (s : Slot) : (c.setDeletable s).clock = c.clock := by
  unfold setDeletable
  split <;> rfl

/-- The clock counts the lookups. -/
theorem clock_apply {c : Cache} {h : History} (hclock : c.clock = h.lookups) (op : Op) :
    (op.apply c).clock = (h.note c op).lookups := by
  cases op with
  | store key parent =>
    exact enforceLimit_induct (fun _ _ => clock_evictOne) ((c.stats_put key parent).2.trans hclock)
  | storeCount s n =>
    rw [Op.apply, Cache.storeCount]
    split <;> exact hclock
  | release s =>
    rw [Op.apply, Cache.release]
    split
    · exact hclock
    · rename_i en hs
      split
      · exact (clock_setDeletable c s).trans hclock
      · exact (remove_of_entry hs).2.trans hclock
  | setDeletable s => exact (clock_setDeletable c s).trans hclock
  | compact => exact compact_induct (fun _ _ => clock_evictOne) hclock
  | setLimits config => exact enforceLimit_induct (fun _ _ => clock_evictOne) hclock
  | answer level key =>
    rw [Op.apply, lookup_snd, lookup, History.note]
    split
    · exact congrArg (· + 1) hclock
    · exact hclock

/-- What the operations keep of a cache and its history. -/
structure Run.Accounted (r : Run) : Prop where
  wf : r.cache.WF
  accounted : r.cache.Accounted
  clock : r.cache.clock = r.history.lookups
  timed : Timed r.cache r.history

theorem Run.Accounted.step {r : Run} (h : r.Accounted) (op : Op) : (r.step op).Accounted :=
  ⟨h.wf.apply op, h.accounted.apply h.wf op, clock_apply h.clock op, (h.timed.apply h.wf h.accounted h.clock op).keep⟩

theorem Run.accounted (scheme : PackingScheme) (config : Config) (ops : List Op) :
    ((Run.start scheme config).steps ops).Accounted := by
  refine Run.steps_induct ⟨wf_new scheme config, accounted_new scheme config, rfl, fun s en hs => ?_⟩
    (fun _ op h => h.step op) ops
  have hentry := (indexed_new scheme config).mem s (hasEntry_iff.2 ⟨en, hs⟩)
  cases hentry

/-- The accounts are exact. The free slots are the empty ones, the statistics are what the stored
entries add up to, no subtraction goes below zero, and an entry that is solved tells the lookups
between storing it and the last count stored for it, whenever it was marked. -/
theorem Run.accounts_exact (scheme : PackingScheme) (config : Config) (ops : List Op) :
    let r := (Run.start scheme config).steps ops
    let c := r.cache
    (c.free.Nodup ∧ (∀ s, s ∈ c.free ↔ 0 < s ∧ s < c.slots.size ∧ c.entry? s = none) ∧ c.entry? 0 = none ∧
      c.size = c.entries.length) ∧
    c.stats.bytes = (c.entries.map fun (_, en) => 84 + 4 * en.key.words.size + 8 * en.limbs).sum ∧
    c.stats.stored = c.stats.evicted + c.stats.discarded + c.size ∧
    c.stats.hits ≤ c.stats.lookups ∧ c.stats.lookups = c.clock ∧ c.clock = r.history.lookups ∧
    (∀ s en, c.entry? s = some en → en.created ≤ c.clock) ∧
    (∀ op : Op, op.Covered c) ∧
    r.history.order.Nodup ∧
    (∀ s en, c.entry? s = some en → ∃ record ∈ r.history.records, record.slot = s ∧ record.Tells en) ∧
    (c.clock < 2 ^ 63 → ∀ s en, c.entry? s = some en →
      (en.word >>> 1).toNat = en.ticks ∧ en.word &&& 1 = (if en.deletable then 1 else 0) ∧
      en.setDeletable.word = en.word ||| 1 ∧ (en.setDeletable.word >>> 1).toNat = en.ticks ∧
      ∀ n, (en.setCount n c.clock).word = UInt64.ofNat (c.clock - en.created) <<< 1 ||| (en.word &&& 1) ∧
        ((en.setCount n c.clock).word >>> 1).toNat = c.clock - en.created ∧
        (en.setCount n c.clock).word &&& 1 = en.word &&& 1) := by
  intro r c
  obtain ⟨hwf, ha, hclock, htimed⟩ : r.Accounted := Run.accounted scheme config ops
  obtain ⟨-, hindexed, -⟩ : r.Indexed := Run.indexed scheme config ops
  refine ⟨⟨hwf.free_nodup, hwf.mem_free, hwf.entry_zero, hwf.size_eq⟩, ?_, ?_, ha.hits, ha.lookups, hclock, ha.created,
    ha.covered hwf, hindexed.nodup, fun s en hs => (htimed s en hs).1, fun hlt s en hs => ?_⟩
  · rw [ha.bytes]
    simp only [total, CacheEntry.byteSize_eq]
    rfl
  · rw [hwf.size_eq, ← total_one]
    exact ha.stored
  · have hticks : en.ticks < 2 ^ 63 := by
      have hle := (htimed s en hs).2
      rw [← hclock] at hle
      exact hle.trans_lt hlt
    have hage : c.clock - en.created < 2 ^ 63 := (Nat.sub_le _ _).trans_lt hlt
    refine ⟨en.word_ticks hticks, en.word_deletable, en.word_setDeletable, en.setDeletable.word_ticks hticks,
      fun n => ⟨en.word_setCount n _, (en.setCount n c.clock).word_ticks hage, ?_⟩⟩
    rw [CacheEntry.word_deletable, CacheEntry.word_deletable]
    rfl

end Cache

end ModelCount
