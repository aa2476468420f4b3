/-
Which entries an eviction takes. Compaction goes through the solved entries that nothing refers to,
the oldest first and the lower slot first among those of one age, and stops as soon as the bytes are
within the target. So it takes the shortest beginning of that queue that is enough, or all of it.
-/
import ModelCount.Proofs.Cache.Accounting

namespace ModelCount

namespace Cache

/-! ## The queue -/

/-- The entry in `s` is older than the one in `t`, or as old and in the lower slot. -/
def Older (c : Cache) (s t : Slot) : Prop :=
  ∃ en en', c.entry? s = some en ∧ c.entry? t = some en' ∧
    (en.created < en'.created ∨ en.created = en'.created ∧ s < t)

/-- The solved entries that nothing refers to, in the order in which they are to go. -/
structure EvictionQueue (c : Cache) (queue : List Slot) : Prop where
  mem : ∀ s, s ∈ queue ↔ ∃ en, c.entry? s = some en ∧ en.isSolved = true ∧ en.deletable = true
  ordered : queue.Pairwise c.Older

theorem entries_sorted (c : Cache) : c.entries.Pairwise fun p q => p.1 < q.1 :=
  List.pairwise_map.1 (c.entries_map_fst ▸ List.pairwise_lt_range.filter _)

theorem candidates_queue (c : Cache) : c.EvictionQueue c.candidates := by
  refine ⟨fun s => ?_, ?_⟩
  · rw [c.candidates_perm.mem_iff, List.mem_map]
    constructor
    · rintro ⟨⟨t, en⟩, hmem, rfl⟩
      obtain ⟨hmem, hev⟩ := List.mem_filter.1 hmem
      exact ⟨en, mem_entries.1 hmem, Bool.and_eq_true_iff.1 hev⟩
    · rintro ⟨en, hs, hev⟩
      exact ⟨(s, en), List.mem_filter.2 ⟨mem_entries.2 hs, Bool.and_eq_true_iff.2 hev⟩, rfl⟩
  · -- The entries are sorted by age alone, but they come in the order of their slots.
    refine List.pairwise_map.2 (List.Pairwise.imp_of_mem ?_ (sortBy_stable (fun a b => ?_) (fun a b d => ?_) _
      (c.entries_sorted.filter _)))
    · rintro ⟨s, en⟩ ⟨t, en'⟩ hs ht ⟨hle, htie⟩
      have hs := mem_entries.1 (List.mem_filter.1 ((sortBy_perm _ _).mem_iff.1 hs)).1
      have ht := mem_entries.1 (List.mem_filter.1 ((sortBy_perm _ _).mem_iff.1 ht)).1
      refine ⟨en, en', hs, ht, ?_⟩
      simp only [decide_eq_true_eq] at hle htie
      exact (Nat.lt_or_eq_of_le hle).imp_right fun heq => ⟨heq, htie heq.ge⟩
    · simp only [decide_eq_true_eq]
      exact Nat.le_total _ _
    · simp only [decide_eq_true_eq]
      exact Nat.le_trans

/-! ## Where an eviction stops -/

/-- The bytes of the entries apart from those in some slots. -/
def bytesWithout (c : Cache) (gone : List Slot) : Nat :=
  ((c.entries.filter fun p => p.1 ∉ gone).map fun p => p.2.byteSize).sum

theorem entries_evictOne (c : Cache) (s : Slot) : (c.evictOne s).entries = c.entries.filter (·.1 ≠ s) := by
  simp only [entries, List.filter_filterMap]
  rw [show (c.evictOne s).slots.size = c.slots.size from size_remove c s]
  refine List.filterMap_congr fun t _ => ?_
  rw [entry?_evictOne]
  by_cases hst : s = t
  · subst hst
    rcases c.entry? s with _ | en <;> simp [Option.filter]
  · rcases c.entry? t with _ | en <;> simp [Option.filter, hst, Ne.symm hst]

theorem bytesWithout_evictOne (c : Cache) (s : Slot) (gone : List Slot) :
    (c.evictOne s).bytesWithout gone = c.bytesWithout (s :: gone) := by
  rw [bytesWithout, bytesWithout, entries_evictOne, List.filter_filter]
  congr 2
  refine List.filter_congr fun p _ => ?_
  simp [Bool.and_comm]

/-- The first `n` of a queue are gone and nothing else, no fewer would have been enough, and these
are enough unless they are all. -/
structure EvictsFirst (c : Cache) (target : Nat) (queue : List Slot) (n : Nat) (c' : Cache) : Prop where
  le : n ≤ queue.length
  entry : ∀ s, c'.entry? s = if s ∈ queue.take n then none else c.entry? s
  stats : c'.stats = { c.stats with evicted := c.stats.evicted + n, bytes := c.bytesWithout (queue.take n) }
  needed : ∀ m < n, target < c.bytesWithout (queue.take m)
  enough : n < queue.length → c.bytesWithout (queue.take n) ≤ target

theorem Accounted.bytes_eq {c : Cache} (h : c.Accounted) : c.stats.bytes = c.bytesWithout [] := by
  simp [h.bytes, total, bytesWithout]

theorem Accounted.evict_evictsFirst (target : Nat) : ∀ (queue : List Slot) {c : Cache}, c.Accounted → queue.Nodup →
    (∀ s ∈ queue, c.hasEntry s = true) → ∃ n, c.EvictsFirst target queue n (c.evict target queue)
  | [], c, h, _, _ =>
    ⟨0, Nat.le_refl _, fun _ => by simp [evict], by simp [evict, ← h.bytes_eq], by simp, by simp⟩
  | s :: queue, c, h, hnd, hall => by
    rw [evict_cons]
    split
    · rename_i hle
      exact ⟨0, Nat.zero_le _, fun _ => by simp, by simp [← h.bytes_eq], by simp, fun _ => h.bytes_eq ▸ hle⟩
    · rename_i hgt
      obtain ⟨hs, hall⟩ := List.forall_mem_cons.1 hall
      obtain ⟨hnot, hnd⟩ := List.nodup_cons.1 hnd
      obtain ⟨n, hle, hentry, hstats, hneeded, henough⟩ := (h.evictOne hs).evict_evictsFirst target queue hnd fun t ht => by
        rw [hasEntry, entry?_evictOne, if_neg fun hst : s = t => hnot (hst ▸ ht)]
        exact hall t ht
      simp only [bytesWithout_evictOne] at hstats hneeded henough
      refine ⟨n + 1, Nat.succ_le_succ hle, fun t => ?_, ?_, fun m hm => ?_, fun hlt => henough (Nat.lt_of_succ_lt_succ hlt)⟩
      · rw [hentry, entry?_evictOne, List.take_succ_cons]
        by_cases hst : s = t
        · simp [hst]
        · simp [hst, Ne.symm hst]
      · obtain ⟨en, hen⟩ := hasEntry_iff.1 hs
        rw [hstats, Cache.evictOne, (remove_of_entry hen).1]
        simp only [List.take_succ_cons, CacheStats.mk.injEq, and_self, true_and, and_true]
        omega
      · rcases m with _ | m
        · exact h.bytes_eq ▸ Nat.lt_of_not_le hgt
        · exact hneeded m (Nat.lt_of_succ_lt_succ hm)

theorem Accounted.compact_evictsFirst {c : Cache} (h : c.Accounted) :
    ∃ n, c.EvictsFirst (c.maxBytes / 2) c.candidates n c.compact :=
  h.evict_evictsFirst _ _ c.candidates_nodup fun _ => hasEntry_of_mem_candidates

/-! ## Within the limit -/

/-- The bytes are within the limit, or nothing is left that may be evicted. -/
def Settled (c : Cache) (limit : Nat) : Prop :=
  c.stats.bytes ≤ limit ∨ ∀ s en, c.entry? s = some en → en.isSolved = false ∨ en.deletable = false

theorem EvictsFirst.settled {c c' : Cache} {target limit n : Nat} {queue : List Slot}
    (h : c.EvictsFirst target queue n c') (hqueue : c.EvictionQueue queue) (hle : target ≤ limit) : c'.Settled limit := by
  rcases Nat.lt_or_eq_of_le h.le with hlt | rfl
  · refine .inl ?_
    rw [h.stats]
    exact (h.enough hlt).trans hle
  · refine .inr fun s en hs => ?_
    rw [h.entry, List.take_length] at hs
    split at hs
    · cases hs
    · rename_i hnot
      rw [hqueue.mem] at hnot
      rw [← Bool.not_eq_true, ← Bool.not_eq_true, ← not_and_or]
      exact fun hev => hnot ⟨en, hs, hev⟩

theorem Accounted.enforceLimit_settled {c : Cache} (h : c.Accounted) : c.enforceLimit.Settled c.maxBytes := by
  unfold Cache.enforceLimit
  split
  · obtain ⟨n, hn⟩ := h.compact_evictsFirst
    exact hn.settled c.candidates_queue (Nat.div_le_self _ _)
  · rename_i hle
    exact .inl (Nat.le_of_not_lt hle)

theorem maxBytes_evictOne (c : Cache) (s : Slot) : (c.evictOne s).maxBytes = c.maxBytes := by
  simp only [evictOne, remove, unlink]
  split
  · rfl
  · split <;> rfl

theorem maxBytes_put (c : Cache) (key : PackedKey) (parent : Option Slot) : (c.put key parent).maxBytes = c.maxBytes := by
  simp only [put, link, place]
  split <;> rfl

/-- Eviction is exact. Compaction takes the shortest beginning of the queue after which the bytes are
within half of the limit, or the whole queue, and nothing else changes. So after a limit was enforced
the bytes are within it or nothing is left to evict, and the entry that was stored is there. -/
theorem Run.compact_exact (scheme : PackingScheme) (config : Config) (ops : List Op) :
    let c := ((Run.start scheme config).steps ops).cache
    (∃ queue n, c.EvictionQueue queue ∧ c.EvictsFirst (c.maxBytes / 2) queue n c.compact) ∧
    (∀ s en, c.entry? s = some en → en.isSolved = false ∨ en.deletable = false → c.compact.entry? s = some en) ∧
    (∀ key parent, let (s, c') := c.store key parent
      c.entry? s = none ∧ c'.entry? s = some { key, parent, created := c.clock, count := none, deletable := false } ∧
      c'.maxBytes = c.maxBytes ∧ c'.Settled c'.maxBytes) ∧
    ∀ config', (c.setLimits config').maxBytes = config'.maxBytes ∧ (c.setLimits config').Settled config'.maxBytes := by
  intro c
  obtain ⟨hwf, ha, -, -⟩ : Run.Accounted _ := Run.accounted scheme config ops
  have hmax : ∀ {d : Cache} {limit : Nat}, d.maxBytes = limit → d.enforceLimit.maxBytes = limit := fun hd =>
    enforceLimit_induct (fun d s _ h => (d.maxBytes_evictOne s).trans h) hd
  refine ⟨?_, fun s en hs hen => ?_, fun key parent => ?_, fun config' => ⟨hmax rfl, ?_⟩⟩
  · obtain ⟨n, hn⟩ := ha.compact_evictsFirst
    exact ⟨c.candidates, n, c.candidates_queue, hn⟩
  · have hev : Evicts c c.compact := evict_evicts _ _ fun _ hs => mem_candidates hs
    exact hev.keeps hs (Bool.and_eq_false_iff.2 hen)
  · have hnew := entry?_put hwf key parent (c.store key parent).1
    have hlimit := hmax (c.maxBytes_put key parent)
    have hsettled := (ha.put hwf key parent).enforceLimit_settled
    rw [if_pos rfl] at hnew
    rw [c.maxBytes_put key parent, ← hlimit] at hsettled
    exact ⟨(store_stores c key parent).fresh hwf, (enforceLimit_evicts _).keeps hnew rfl, hlimit, hsettled⟩
  · exact Accounted.enforceLimit_settled (ha.congr rfl rfl rfl)

end Cache

end ModelCount
