/-
Runs of a cache. Its operations are called in any order, with any slots, and a history beside the
cache notes from the calls alone which entries were stored when and counted when. Every change of an
operation is one of a few steps, so an invariant is looked at for these steps and holds of all runs.
-/
import Mathlib.Data.List.Induction
import ModelCount.Proofs.Cache

namespace ModelCount

namespace Cache

/-! ## Operations and their history -/

/-- What a caller may ask of a cache. A slot may be empty, or hold another entry than it once did. -/
inductive Op where
  | store (key : PackedKey) (parent : Option Slot)
  | storeCount (s : Slot) (n : Nat)
  | release (s : Slot)
  | setDeletable (s : Slot)
  | compact
  | setLimits (config : Config)
  | answer (level : Level) (key : PackedKey)

def Op.apply (c : Cache) : Op → Cache
  | .store key parent => (c.store key parent).2
  | .storeCount s n => c.storeCount s n
  | .release s => c.release s
  | .setDeletable s => c.setDeletable s
  | .compact => c.compact
  | .setLimits config => c.setLimits config
  | .answer level key => (c.answer level key).2.2

/-- An entry as its calls tell of it: the lookups there had been when it was stored, and when a count
was last stored for it. -/
structure Record where
  slot : Slot
  storedAt : Nat
  countedAt : Option Nat := none

/-- The lookups so far, and the entries that are still stored, the oldest one in front. -/
structure History where
  lookups : Nat := 0
  records : List Record := []

namespace History

def order (h : History) : List Slot := h.records.map Record.slot

/-- Forgets the entries that are not stored any more. -/
def keep (h : History) (c : Cache) : History :=
  { h with records := h.records.filter fun r => c.hasEntry r.slot }

/-- Notes the call of an operation on a cache. A lookup is one only while caching is on. -/
def note (h : History) (c : Cache) : Op → History
  | .store key parent => { h with records := h.records ++ [⟨(c.store key parent).1, h.lookups, none⟩] }
  | .storeCount s _ =>
    { h with records := h.records.map fun r => if r.slot = s then { r with countedAt := some h.lookups } else r }
  | .answer .. => { h with lookups := if c.caching then h.lookups + 1 else h.lookups }
  | _ => h

theorem order_keep (h : History) (c : Cache) : (h.keep c).order = h.order.filter c.hasEntry := by
  simp only [order, keep, List.filter_map]
  rfl

@[simp] theorem order_note_store (h : History) (c : Cache) (key : PackedKey) (parent : Option Slot) :
    (h.note c (.store key parent)).order = h.order ++ [(c.store key parent).1] := by
  simp [order, note]

@[simp] theorem order_note_storeCount (h : History) (c : Cache) (s : Slot) (n : Nat) :
    (h.note c (.storeCount s n)).order = h.order := by
  simp only [order, note, List.map_map]
  refine List.map_congr_left fun r _ => ?_
  simp only [Function.comp_apply]
  split <;> rfl

end History

/-- A cache in use, with its history. -/
structure Run where
  cache : Cache
  history : History

namespace Run

def start (scheme : PackingScheme) (config : Config) : Run := ⟨new scheme config, {}⟩

def step (r : Run) (op : Op) : Run :=
  ⟨op.apply r.cache, (r.history.note r.cache op).keep (op.apply r.cache)⟩

def steps (r : Run) (ops : List Op) : Run := ops.foldl step r

/-- What holds of a new cache and is kept by every operation holds whatever operations are called. -/
theorem steps_induct {P : Run → Prop} {r : Run} (hstart : P r) (hstep : ∀ r op, P r → P (r.step op)) (ops : List Op) :
    P (r.steps ops) :=
  List.foldlRecOn ops step hstart fun r hr op _ => hstep r op hr

end Run

/-! ## The steps of an eviction -/

theorem hasEntry_iff {c : Cache} {s : Slot} : c.hasEntry s = true ↔ ∃ en, c.entry? s = some en :=
  Option.isSome_iff_exists

theorem entries_map_fst (c : Cache) : c.entries.map Prod.fst = (List.range c.slots.size).filter c.hasEntry := by
  simp only [entries, List.map_filterMap, Option.map_map, ← List.filterMap_eq_filter]
  refine List.filterMap_congr fun s _ => ?_
  rcases h : c.entry? s with _ | en <;> simp [hasEntry, Option.guard, h]

theorem mem_entries {c : Cache} {s : Slot} {en : CacheEntry} : (s, en) ∈ c.entries ↔ c.entry? s = some en := by
  simp only [entries, List.mem_filterMap, List.mem_range, Option.map_eq_some_iff, Prod.mk.injEq]
  constructor
  · rintro ⟨t, -, en', h, rfl, rfl⟩
    exact h
  · exact fun h => ⟨s, lt_size_of_some h, en, h, rfl, rfl⟩

theorem candidates_perm (c : Cache) :
    c.candidates.Perm ((c.entries.filter fun (_, en) => en.isEvictable).map Prod.fst) :=
  (sortBy_perm _ _).map _

/-- Eviction goes over stored entries, and over none twice. -/
theorem candidates_nodup (c : Cache) : c.candidates.Nodup := by
  have h : (c.entries.map Prod.fst).Nodup := c.entries_map_fst ▸ List.nodup_range.filter _
  exact c.candidates_perm.nodup_iff.2 (h.sublist (List.filter_sublist.map _))

theorem hasEntry_of_mem_candidates {c : Cache} {s : Slot} (h : s ∈ c.candidates) : c.hasEntry s = true := by
  obtain ⟨⟨t, en⟩, hmem, rfl⟩ := List.mem_map.1 (c.candidates_perm.mem_iff.1 h)
  exact hasEntry_iff.2 ⟨en, mem_entries.1 (List.mem_filter.1 hmem).1⟩

section Evicting

variable {P : Cache → Prop} (hP : ∀ c s, c.hasEntry s = true → P c → P (c.evictOne s))
include hP

theorem evict_induct (target : Nat) : ∀ (slots : List Slot) {c : Cache}, slots.Nodup →
    (∀ s ∈ slots, c.hasEntry s = true) → P c → P (c.evict target slots)
  | [], _, _, _, hc => hc
  | s :: slots, c, hnd, hall, hc => by
    rw [evict_cons]
    split
    · exact hc
    · obtain ⟨hs, hall⟩ := List.forall_mem_cons.1 hall
      obtain ⟨hnot, hnd⟩ := List.nodup_cons.1 hnd
      refine evict_induct target slots hnd (fun t ht => ?_) (hP c s hs hc)
      rw [hasEntry, entry?_evictOne, if_neg fun hst : s = t => hnot (hst ▸ ht)]
      exact hall t ht

/-- What the eviction of one entry keeps is kept by compaction. -/
theorem compact_induct {c : Cache} (hc : P c) : P c.compact :=
  evict_induct hP _ _ c.candidates_nodup (fun _ => hasEntry_of_mem_candidates) hc

theorem enforceLimit_induct {c : Cache} (hc : P c) : P c.enforceLimit := by
  unfold enforceLimit
  split
  · exact compact_induct hP hc
  · exact hc

end Evicting

/-! ## Well-formed runs -/

theorem lookup_snd (c : Cache) (level : Level) (key : PackedKey) : (c.answer level key).2.2 = (c.lookup key).2 := by
  unfold answer
  split <;> rename_i h <;> rw [h]

theorem WF.apply {c : Cache} (h : c.WF) (op : Op) : (op.apply c).WF := by
  cases op with
  | store key parent => exact (store_stores c key parent).wf h
  | storeCount s n => exact h.storeCount s n
  | release s => exact h.release s
  | setDeletable s => exact h.setDeletable s
  | compact => exact h.evict _ _
  | setLimits config => exact h.setLimits config
  | answer level key =>
    obtain ⟨hslots, hfree, -⟩ := lookup_keeps c key
    exact (lookup_snd c level key ▸ h.congr hslots hfree : (c.answer level key).2.2.WF)

end Cache

end ModelCount
