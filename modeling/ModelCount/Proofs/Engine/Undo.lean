/-
Taking a decomposition back. The entries that a pass stores are unsolved, so they are what the release
of its level discards; what else is gone was evicted to make room. So a level that is released as soon
as it was split leaves the stack and the entries as they were, and can be split again.
-/
import ModelCount.Proofs.Cache.Accounting
import ModelCount.Proofs.Engine.Repeat

namespace ModelCount

/-! ## Entries that a pass adds -/

namespace Cache

variable {c c' : Cache} {slots : List Slot}

def Evictable (c : Cache) (s : Slot) : Prop := ∃ en, c.entry? s = some en ∧ en.isEvictable = true

/-- Since `c`, unsolved entries came into `slots`, which were empty or held what may be evicted. All
other entries are as they were or evicted, and the evicted ones are counted. -/
structure Adds (c : Cache) (slots : List Slot) (c' : Cache) : Prop where
  wf : c'.WF
  nodup : slots.Nodup
  old : ∀ s, s ∉ slots → c'.entry? s = c.entry? s ∨ c'.entry? s = none ∧ c.Evictable s
  new : ∀ s ∈ slots, ∃ en, c'.entry? s = some en ∧ en.isSolved = false
  taken : ∀ s ∈ slots, c.entry? s = none ∨ c.Evictable s
  counted : c'.stats.evicted + c'.total (fun _ => 1) = c.stats.evicted + c.total (fun _ => 1) + slots.length

theorem Adds.refl (h : c.WF) : c.Adds [] c :=
  ⟨h, List.nodup_nil, fun _ _ => .inl rfl, by simp, by simp, rfl⟩

theorem Adds.perm (h : c.Adds slots c') {slots' : List Slot} (hp : slots'.Perm slots) : c.Adds slots' c' :=
  ⟨h.wf, hp.nodup_iff.2 h.nodup, fun s hs => h.old s (mt hp.mem_iff.2 hs), fun s hs => h.new s (hp.mem_iff.1 hs),
    fun s hs => h.taken s (hp.mem_iff.1 hs), hp.length_eq ▸ h.counted⟩

/-- A change that leaves the entries as they are, such as a lookup. -/
theorem Adds.congr (h : c.Adds slots c') {c'' : Cache} (hslots : c''.slots = c'.slots) (hfree : c''.free = c'.free)
    (hevicted : c''.stats.evicted = c'.stats.evicted) : c.Adds slots c'' := by
  have he := entry?_congr hslots
  refine ⟨h.wf.congr hslots hfree, h.nodup, fun s hs => by rw [he]; exact h.old s hs,
    fun s hs => by rw [he]; exact h.new s hs, h.taken, ?_⟩
  rw [hevicted, total_of_slots hslots]
  exact h.counted

/-- An eviction takes the entry off the stored ones and counts it among the evicted ones. -/
theorem enforceLimit_counted (c : Cache) :
    c.enforceLimit.stats.evicted + c.enforceLimit.total (fun _ => 1) = c.stats.evicted + c.total fun _ => 1 := by
  refine @enforceLimit_induct
    (fun d => d.stats.evicted + d.total (fun _ => 1) = c.stats.evicted + c.total fun _ => 1) (fun d s hs hd => ?_) c rfl
  obtain ⟨en, hen⟩ := hasEntry_iff.1 hs
  have hstats : (d.evictOne s).stats.evicted = d.stats.evicted + 1 := by
    simp only [evictOne, (remove_of_entry hen).1]
  have hcount := total_remove hen fun _ => 1
  rw [← hd, hstats, total_of_slots (show (d.evictOne s).slots = (d.remove s).slots from rfl)]
  omega

/-- The new entry goes to a slot that is empty by then, and nothing that is unsolved is evicted for it. -/
theorem Adds.store (h : c.Adds slots c') (key : PackedKey) (parent : Option Slot) :
    c.Adds (slots ++ [(c'.store key parent).1]) (c'.store key parent).2 := by
  have hs := store_stores c' key parent
  have hfresh := hs.fresh h.wf
  have hnot : (c'.store key parent).1 ∉ slots := fun hmem => by
    obtain ⟨en, hen, -⟩ := h.new _ hmem
    cases hfresh.symm.trans hen
  refine ⟨hs.wf h.wf, ?_, fun t ht => ?_, fun t ht => ?_, fun t ht => ?_, ?_⟩
  · exact List.nodup_append.2 ⟨h.nodup, List.nodup_singleton _, fun t ht u hu hne =>
      hnot (List.mem_singleton.1 hu ▸ hne ▸ ht)⟩
  · obtain ⟨ht, hne⟩ := not_or.1 (mt List.mem_append.2 ht)
    have hput := entry?_put h.wf key parent t
    rw [if_neg fun heq => hne (List.mem_singleton.2 heq)] at hput
    rcases (enforceLimit_evicts (c'.put key parent)).entry t with hsame | ⟨hgone, en, hen, hev⟩
    · rw [store_eq, hsame, hput]
      exact h.old t ht
    · -- The entry that is evicted now was there from the start.
      rw [hput] at hen
      rcases h.old t ht with hold | ⟨hnone, -⟩
      · exact .inr ⟨hgone, en, hold.symm.trans hen, hev⟩
      · cases hnone.symm.trans hen
  · rcases List.mem_append.1 ht with ht | ht
    · obtain ⟨en, hen, hunsolved⟩ := h.new t ht
      refine ⟨en, hs.keeps t en hen (by simp [CacheEntry.isEvictable, hunsolved]) fun heq => hnot (heq ▸ ht), hunsolved⟩
    · obtain ⟨en, hen, -, hcount, -⟩ := hs.stored h.wf
      exact ⟨en, List.mem_singleton.1 ht ▸ hen, by simp [CacheEntry.isSolved, hcount]⟩
  · rcases List.mem_append.1 ht with ht | ht
    · exact h.taken t ht
    · obtain rfl := List.mem_singleton.1 ht
      exact (h.old _ hnot).imp (fun hold => hold.symm.trans hfresh) And.right
  · have hcounted := (c'.put key parent).enforceLimit_counted
    rw [total_put h.wf, (c'.stats_put key parent).1] at hcounted
    rw [store_eq, hcounted, List.length_append, List.length_singleton, ← Nat.add_assoc, ← Nat.add_assoc, h.counted]

/-- Letting go of a new entry discards it. -/
theorem Adds.release {s : Slot} (h : c.Adds (s :: slots) c') : c.Adds slots (c'.release s) := by
  obtain ⟨hnot, hnd⟩ := List.nodup_cons.1 h.nodup
  obtain ⟨en, hen, hunsolved⟩ := h.new s (List.mem_cons_self ..)
  have hentry : ∀ t, entry? (c'.release s) t = if s = t then none else c'.entry? t := fun t => by
    rw [entry?_release]
    by_cases hst : s = t
    · subst hst
      simp [hen, hunsolved]
    · simp [hst]
  refine ⟨h.wf.release s, hnd, fun t ht => ?_, fun t ht => ?_, fun t ht => h.taken t (List.mem_cons_of_mem s ht), ?_⟩
  · rw [hentry]
    by_cases hst : s = t
    · subst hst
      rw [if_pos rfl]
      exact (h.taken s (List.mem_cons_self ..)).imp Eq.symm fun hev => ⟨rfl, hev⟩
    · rw [if_neg hst]
      exact h.old t fun hmem => (List.mem_cons.1 hmem).elim (fun heq => hst heq.symm) ht
  · rw [hentry, if_neg fun hst : s = t => hnot (hst ▸ ht)]
    exact h.new t (List.mem_cons_of_mem s ht)
  · have hcount := total_remove hen fun _ => 1
    have hcounted := h.counted
    have hslots : (c'.release s).slots = (c'.remove s).slots := by simp [Cache.release, hen, hunsolved]
    have hevicted : (c'.release s).stats.evicted = c'.stats.evicted := by
      simp [Cache.release, hen, hunsolved, (remove_of_entry hen).1]
    rw [List.length_cons] at hcounted
    rw [hevicted, total_of_slots hslots]
    omega

theorem Adds.releaseAll : ∀ {slots : List Slot} {c' : Cache}, c.Adds slots c' → c.Adds [] (slots.foldl Cache.release c')
  | [], _, h => h
  | _ :: _, _, h => h.release.releaseAll

end Cache

namespace Engine

variable {f : Formula} {e e' : Engine} {level level' : Level}

/-! ## What a decomposition adds -/

theorem register_adds {c : Cache} {slots : List Slot} {parent : Option Slot} {fd : Found}
    (hentry : fd.component.entry = none) (h : c.Adds slots e.cache)
    (hr : register parent (e, level) fd = .ok (e', level')) :
    ∃ block, e'.stack.items = e.stack.items ++ block ∧ c.Adds (slots ++ block.filterMap Component.entry) e'.cache := by
  simp only [register, bind_eq_ok] at hr
  obtain ⟨key, -, hr⟩ := hr
  obtain ⟨hslots, hfree, -⟩ := e.cache.lookup_keeps key
  have hlookup := h.congr hslots hfree (by unfold Cache.lookup; split <;> rfl)
  rcases hl : e.cache.lookup key with ⟨_ | n, cache⟩ <;> simp only [Cache.answer, hl] at hr hlookup
  · split at hr <;> cases hr
    · exact ⟨_, rfl, hlookup.store key parent⟩
    · exact ⟨_, rfl, by simpa [hentry] using hlookup⟩
  · cases hr
    exact ⟨[], (List.append_nil _).symm, by simpa using hlookup⟩

theorem registerAll_adds {c : Cache} {parent : Option Slot} : ∀ (fds : List Found) {e e' : Engine} {level level' : Level}
    {slots : List Slot}, (∀ fd ∈ fds, fd.component.entry = none) → c.Adds slots e.cache →
    fds.foldlM (register parent) (e, level) = .ok (e', level') →
    ∃ block, e'.stack.items = e.stack.items ++ block ∧ c.Adds (slots ++ block.filterMap Component.entry) e'.cache
  | [], e, e', _, _, _, _, h, hr => by
    cases hr
    exact ⟨[], (List.append_nil _).symm, by simpa using h⟩
  | fd :: fds, e, e', level, level', slots, hentries, h, hr => by
    obtain ⟨hentry, hentries⟩ := List.forall_mem_cons.1 hentries
    rw [List.foldlM_cons, bind_eq_ok] at hr
    obtain ⟨⟨e₁, level₁⟩, hfd, hr⟩ := hr
    obtain ⟨block, hstack, hadds⟩ := register_adds hentry h hfd
    obtain ⟨block', hstack', hadds'⟩ := registerAll_adds fds hentries hadds hr
    refine ⟨block ++ block', by rw [hstack', hstack, List.append_assoc], ?_⟩
    rwa [List.filterMap_append, ← List.append_assoc]

/-- The entries that came are those of the components that are on the stack now. -/
theorem Alive.decompose_adds (h : e.Alive f) (hd : e.decompose level = .ok (e', level')) :
    ∃ block, e'.stack.items = e.stack.items ++ block ∧ e.cache.Adds (block.filterMap Component.entry) e'.cache := by
  simp only [decompose, bind_eq_ok, mapError_eq_ok] at hd
  obtain ⟨super, hsuper, ⟨e₁, level₁⟩, hfold, hd⟩ := hd
  cases hd
  have hfound := (h.loaded.passOver_decomposes (h.within (superComponent_eq_ok hsuper))).found
  obtain ⟨block, hstack, hadds⟩ := registerAll_adds (e := { e with pass := (e.passOver super).pass })
    (e.passOver super).found (fun fd hfd => (hfound fd hfd).entry_eq) (.refl h.wf) hfold
  refine ⟨e₁.order.arrange block, ?_, hadds.perm ((e₁.order.perm block).filterMap _)⟩
  simp only [ComponentStack.sortFrom, ComponentStack.size, hstack, List.take_left', List.drop_left']

/-! ## Undoing it -/

/-- The engine is as before a pass: nothing came, and what is gone may be evicted and was. -/
structure Undone (e u : Engine) : Prop where
  stack : u.stack = e.stack
  kept : ∀ s en, u.cache.entry? s = some en → e.cache.entry? s = some en
  gone : ∀ s en, e.cache.entry? s = some en →
    u.cache.entry? s = some en ∨ u.cache.entry? s = none ∧ en.isSolved = true ∧ en.deletable = true
  evicted : u.cache.stats.evicted + u.cache.size = e.cache.stats.evicted + e.cache.size

theorem Alive.undone (h : e.Alive f) {u : Engine} (hstack : u.stack = e.stack) (hadds : e.cache.Adds [] u.cache) :
    e.Undone u := by
  refine ⟨hstack, fun s en hs => ?_, fun s en hs => ?_, ?_⟩
  · rcases hadds.old s List.not_mem_nil with hold | ⟨hnone, -⟩
    · exact hold.symm.trans hs
    · cases hnone.symm.trans hs
  · rcases hadds.old s List.not_mem_nil with hold | ⟨hnone, en', hen', hev⟩
    · exact .inl (hold.trans hs)
    · cases hen'.symm.trans hs
      exact .inr ⟨hnone, Bool.and_eq_true_iff.1 hev⟩
  · rw [hadds.wf.size_eq, h.wf.size_eq, ← Cache.total_one, ← Cache.total_one]
    exact hadds.counted

theorem release_congr (e : Engine) (h : level'.offset = level.offset) : e.release level' = e.release level := by
  rw [Engine.release, Engine.release, h]

theorem release_of_empty (e : Engine) (h : level.offset = e.stack.size) : e.release level = e := by
  simp [Engine.release, ComponentStack.drain, h, ComponentStack.size]

/-- A level that is released right after its super-component was split leaves the engine as it was. -/
theorem Alive.undone_release (h : e.Alive f) (hoffset : level.offset = e.stack.size) {super : Component}
    (hsuper : e.superComponent level = .ok super) (hd : e.decompose level = .ok (e', level')) :
    e.Undone (e'.release level') ∧
      e'.release level' = { e with pass := (e.passOver super).pass, cache := (e'.release level').cache } := by
  obtain ⟨block, hstack, hadds⟩ := h.decompose_adds hd
  obtain ⟨hcont, -⟩ := decompose_continues h hd
  have hdrop : (e'.release level').cache = (block.filterMap Component.entry).foldl Cache.release e'.cache := by
    simp only [Engine.release, ComponentStack.drain, hcont.offset, hoffset, hstack, ComponentStack.size, List.drop_left']
  have htake : (e'.release level').stack = e.stack := by
    simp only [Engine.release, ComponentStack.drain, hcont.offset, hoffset, hstack, ComponentStack.size, List.take_left']
  refine ⟨h.undone htake (hdrop ▸ hadds.releaseAll), ?_⟩
  obtain ⟨super', kept, hits, hsuper', hdec⟩ := h.decomposed hd
  cases hsuper.symm.trans hsuper'
  calc e'.release level' = { e' with cache := (e'.release level').cache, stack := e.stack } := by rw [← htake]; rfl
    _ = { e with pass := (e.passOver super).pass, cache := (e'.release level').cache } :=
      congrArg (fun d : Engine => { d with cache := (e'.release level').cache, stack := e.stack }) hdec.frame

/-- A pass can be taken back. When a level that has nothing on the stack is split, by a decomposition or by
asking for its next component, and released again, the stack and the entries are as before, apart from
solved entries that nothing refers to and that were evicted. The pass can be made again, over the same
isolated variables and the same components. Where there is no super-component, nothing happens at all. -/
theorem decompose_undone (he : e.Reachable) (hoffset : level.offset = e.stack.size) :
    (∀ err, e.superComponent level = .error err →
      e.decompose level = .error err ∧ e.nextComponent level = .error err ∧ e.release level = e) ∧
    ∀ super, e.superComponent level = .ok super → ∃ e₁ level₁ kept hits found level₂,
      e.decompose level = .ok (e₁, level₁) ∧ Decomposed e level super kept hits e₁ level₁ ∧
      e.nextComponent level = .ok (found, e₁, level₂) ∧
      e₁.release level₂ = e₁.release level₁ ∧ e.Undone (e₁.release level₁) ∧
      ((e₁.release level₁).passOver super).isolated = (e.passOver super).isolated ∧
      ((e₁.release level₁).passOver super).found = (e.passOver super).found ∧
      ∀ again : Level, again.superIndex = level.superIndex → ∃ e₂ level₃ kept' hits',
        (e₁.release level₁).decompose again = .ok (e₂, level₃) ∧
        Decomposed (e₁.release level₁) again super kept' hits' e₂ level₃ ∧
        (kept'.map Prod.fst ++ hits'.map Prod.fst).Perm (kept.map Prod.fst ++ hits.map Prod.fst) := by
  obtain ⟨f, hf⟩ := he.paired
  refine ⟨fun err herr => ?_, fun super hsuper => ?_⟩
  · exact ⟨decompose_of_error herr, nextComponent_of_error herr, e.release_of_empty hoffset⟩
  have hmem := superComponent_eq_ok hsuper
  obtain ⟨e₁, level₁, kept, hits, hd, hdec⟩ := hf.toAlive.decompose_isOk hsuper
  obtain ⟨hcont, -⟩ := decompose_continues hf.toAlive hd
  obtain ⟨hundone, hframe⟩ := hf.toAlive.undone_release hoffset hsuper hd
  obtain ⟨hisolated, hfound⟩ := hf.toAlive.passOver_again hmem (e₁.release level₁).cache
  rw [← hframe] at hisolated hfound
  have hnext := nextComponent_of_below hsuper hoffset.ge hd
  obtain ⟨found, level₂, hoffset₂, hnext⟩ : ∃ found level₂, level₂.offset = level₁.offset ∧
      e.nextComponent level = .ok (found, e₁, level₂) := by
    rw [hnext]
    split
    · exact ⟨true, level₁, rfl, rfl⟩
    · exact ⟨false, level₁.times 1, (Level.continues_times level₁ 1).offset, rfl⟩
  refine ⟨e₁, level₁, kept, hits, found, level₂, hd, hdec, hnext, e₁.release_congr hoffset₂, hundone, hisolated, hfound,
    fun again hagain => ?_⟩
  have hsuper' : (e₁.release level₁).superComponent again = .ok super := by
    rw [superComponent, hagain, component_iff, hundone.stack, ← component_iff, ← superComponent, hsuper]
  obtain ⟨f', hf'⟩ := (Reachable.call (.call he (.decompose hd)) (.release e₁ level₁)).paired
  obtain ⟨e₂, level₃, kept', hits', hd₂, hdec₂⟩ := hf'.toAlive.decompose_isOk hsuper'
  exact ⟨e₂, level₃, kept', hits', hd₂, hdec₂, hdec₂.perm.trans (hfound ▸ hdec.perm.symm)⟩

/-- The limit allows two entries. A solved entry of the first split makes way for one of the second, which
answers one component and stores one; taken back, it leaves the entry of the root alone. -/
theorem decompose_undone_twoParts :
    ∃ (e₁ e₂ e₃ e₅ : Engine) (level level' : Level),
      (Engine.new.configure { maxBytes := some 200 }).load (.ofCnf .twoParts) = .ok e₁ ∧
      e₁.decompose (.new 0 1) = .ok (e₂, level) ∧ e₂.storeCount 2 3 = .ok e₃ ∧
      (e₃.release level).stack.size = 1 ∧ (e₃.release level).cache.hasEntry 2 = true ∧
      (e₃.release level).decompose (.new 0 1) = .ok (e₅, level') ∧ e₅.stack.size = 2 ∧
      e₅.cache.hasEntry 2 = false ∧ e₅.cache.hasEntry 3 = true ∧
      (e₃.release level).Undone (e₅.release level') ∧ (e₅.release level').cache.hasEntry 3 = false ∧
      ∃ super e₆ level₆ kept hits, (e₅.release level').decompose (.new 0 1) = .ok (e₆, level₆) ∧
        Decomposed (e₅.release level') (.new 0 1) super kept hits e₆ level₆ ∧ kept.length = 2 := by
  have hcalls : (do
      let e₁ ← (Engine.new.configure { maxBytes := some 200 }).load (.ofCnf .twoParts)
      let d ← e₁.decompose (.new 0 1)
      let e₃ ← d.1.storeCount 2 3
      let e₄ := e₃.release d.2
      let d' ← e₄.decompose (.new 0 1)
      let u := d'.1.release d'.2
      let d'' ← u.decompose (.new 0 1)
      return ([e₄.stack.size, d'.1.stack.size, d''.1.stack.size],
        [e₄.cache.hasEntry 2, d'.1.cache.hasEntry 2, d'.1.cache.hasEntry 3, u.cache.hasEntry 3])) =
        (.ok ([1, 2, 3], [true, false, true, false]) : Except EngineError _) := by decide +kernel
  simp only [bind_eq_ok] at hcalls
  obtain ⟨e₁, hload, ⟨e₂, level⟩, hd, e₃, hstore, ⟨e₅, level'⟩, hd', ⟨e₆, level₆⟩, hd'', h⟩ := hcalls
  injection h with h
  simp only [Prod.mk.injEq, List.cons.injEq, and_true] at h
  obtain ⟨⟨hsize, hsize', hsize''⟩, hsolved, hgone, hnew, hdiscarded⟩ := h
  have hreach : (e₃.release level).Reachable :=
    .call (.call (.call (.load (.call (.new .stable) (.configure _ _)) hload) (.decompose hd)) (.storeCount hstore))
      (.release e₃ level)
  obtain ⟨super, hsuper, -⟩ := bind_eq_ok.1 hd'
  obtain ⟨e₇, level₇, kept, hits, found, level₈, hd₇, -, -, -, hundone, -, -, hagain⟩ :=
    (decompose_undone hreach hsize.symm).2 super hsuper
  obtain ⟨rfl, rfl⟩ := Prod.mk.inj (Except.ok.inj (hd'.symm.trans hd₇))
  obtain ⟨e₈, level₉, kept', hits', hd₈, hdec, -⟩ := hagain (.new 0 1) rfl
  obtain ⟨rfl, rfl⟩ := Prod.mk.inj (Except.ok.inj (hd''.symm.trans hd₈))
  refine ⟨e₁, e₂, e₃, e₅, level, level', hload, hd, hstore, hsize, hsolved, hd', hsize', hgone, hnew, hundone, hdiscarded,
    super, e₆, level₆, kept', hits', hd₈, hdec, ?_⟩
  -- Both components are on top of the root now.
  obtain ⟨block, hitems, hperm, -⟩ := hdec.stack
  have hlength := congrArg List.length hitems
  have hroot : (e₅.release level').stack.size = 1 := by rw [hundone.stack, hsize]
  rw [List.length_append, hperm.length_eq, List.length_map] at hlength
  simp only [ComponentStack.size] at hsize'' hroot
  omega

end Engine

end ModelCount
