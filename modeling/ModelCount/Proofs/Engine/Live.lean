/-
What is alive in an engine. Every live component arises from nested passes and keeps an entry of its own,
which is under its key and may not be evicted, until its level is released. Apart from that, the operations
of an engine change its cache and its stack in a few ways only; what all of these keep, every operation keeps.
-/
import Mathlib.Logic.Relation
import ModelCount.Proofs.Engine.Keys

namespace ModelCount

/-! ## Live components -/

/-- The same entry, perhaps with a count by now. -/
structure CacheEntry.Persists (en en' : CacheEntry) : Prop where
  key : en'.key = en.key
  parent : en'.parent = en.parent
  created : en'.created = en.created
  deletable : en'.deletable = en.deletable
  solved : en.isSolved = true → en'.isSolved = true

namespace CacheEntry.Persists

theorem refl (en : CacheEntry) : en.Persists en := ⟨rfl, rfl, rfl, rfl, id⟩

theorem trans {en en' en'' : CacheEntry} (h : en.Persists en') (h' : en'.Persists en'') : en.Persists en'' :=
  ⟨h'.key.trans h.key, h'.parent.trans h.parent, h'.created.trans h.created, h'.deletable.trans h.deletable,
    fun hs => h'.solved (h.solved hs)⟩

theorem setCount (en : CacheEntry) (n time : Nat) : en.Persists (en.setCount n time) :=
  ⟨rfl, rfl, rfl, rfl, fun _ => rfl⟩

end CacheEntry.Persists

/-- A component that may be on the stack: it arises from nested passes, and its entry, if it has one, is
under its key and may not be evicted. -/
def Cache.Awaits (cache : Cache) (f : Formula) (c : Component) : Prop :=
  ∃ view, f.Arises { c with entry := none } view ∧ ∀ s, c.entry = some s →
    ∃ en, cache.entry? s = some en ∧ en.deletable = false ∧ PackedKey.encode cache.scheme view = .ok en.key

/-- Another cache that still has the entry of the component. -/
theorem Cache.Awaits.transfer {cache cache' : Cache} {f : Formula} {c : Component} (h : cache.Awaits f c)
    (hscheme : cache'.scheme = cache.scheme)
    (hkeep : ∀ s en, c.entry = some s → cache.entry? s = some en →
      ∃ en', cache'.entry? s = some en' ∧ en.Persists en') : cache'.Awaits f c := by
  obtain ⟨view, ha, hentry⟩ := h
  refine ⟨view, ha, fun s hs => ?_⟩
  obtain ⟨en, hen, hdel, hkey⟩ := hentry s hs
  obtain ⟨en', hen', hpersists⟩ := hkeep s en hs hen
  exact ⟨en', hen', hpersists.deletable.trans hdel, by rw [hscheme, hpersists.key, hkey]⟩

theorem Cache.Awaits.of_arises {cache : Cache} {f : Formula} {c view : Component} (ha : f.Arises c view) :
    cache.Awaits f c := by
  have hentry := ha.complete.entry_eq
  refine ⟨view, ?_, fun s hs => ?_⟩
  · rw [← hentry]
    exact ha
  · rw [hentry] at hs
    cases hs

namespace Engine

variable {f : Formula} {e e' : Engine}

structure Alive (e : Engine) (f : Formula) : Prop where
  loaded : e.Loaded f
  wf : e.cache.WF
  live : ∀ c ∈ e.stack.items, e.cache.Awaits f c
  entries_nodup : (e.stack.items.filterMap Component.entry).Nodup

theorem Alive.within (h : e.Alive f) {c : Component} (hc : c ∈ e.stack.items) : c.Within f := by
  obtain ⟨view, ha, -⟩ := h.live c hc
  exact ha.complete.within.of_sublist (.refl _) (.refl _)

/-- What a pass over a live component finds arises. -/
theorem Alive.arises (h : e.Alive f) {super : Component} (hsuper : super ∈ e.stack.items) {fd : Found}
    (hfd : fd ∈ (e.passOver super).found) : f.Arises fd.component fd.view := by
  obtain ⟨view, ha, -⟩ := h.live super hsuper
  exact .found super.entry ha h.loaded hfd

/-- The slot of a live component is not empty. -/
theorem Alive.exists_entry (h : e.Alive f) {c : Component} (hc : c ∈ e.stack.items) {s : Slot} (hs : c.entry = some s) :
    ∃ en, e.cache.entry? s = some en ∧ en.deletable = false := by
  obtain ⟨_, -, hentry⟩ := h.live c hc
  obtain ⟨en, hen, hdel, -⟩ := hentry s hs
  exact ⟨en, hen, hdel⟩

/-- The entry of a live component may not be evicted. -/
theorem Alive.not_evictable (h : e.Alive f) {c : Component} (hc : c ∈ e.stack.items) {s : Slot} (hs : c.entry = some s)
    {en : CacheEntry} (hen : e.cache.entry? s = some en) : en.isEvictable = false := by
  obtain ⟨en', hen', hdel⟩ := h.exists_entry hc hs
  rw [hen] at hen'
  cases hen'
  simp [CacheEntry.isEvictable, hdel]

theorem load_alive {e₀ : Engine} (h : e₀.load f = .ok e) : e.Alive f := by
  obtain ⟨hl, -, hwf, entry, hitems, hentry, -⟩ := load_eq_ok h
  refine ⟨hl, hwf, ?_, ?_⟩
  · rw [hitems]
    exact List.forall_mem_singleton.2 ⟨root f, .root, fun s hs => hentry s hs⟩
  · rw [hitems]
    cases entry <;> simp [root]

/-! ## What operations that succeed did -/

theorem assign_eq_ok {l : Lit} (h : e.assign l = .ok e') : e' = { e with assignment := e.assignment.set l } := by
  simp only [assign, bind_eq_ok, mapError_eq_ok, Assignment.assign] at h
  obtain ⟨a, ⟨-, -, ha⟩, he⟩ := h
  cases ha
  cases he
  rfl

theorem unassign_eq_ok {v : Var} (h : e.unassign v = .ok e') : e' = { e with assignment := e.assignment.clear v } := by
  simp only [unassign, bind_eq_ok, mapError_eq_ok, Assignment.unassign] at h
  obtain ⟨a, ⟨-, -, ha⟩, he⟩ := h
  cases ha
  cases he
  rfl

theorem live_iff {index : Nat} {c : Component} : e.live index = .ok c ↔ e.stack.items[index]? = some c := by
  unfold live ComponentStack.get?
  split
  · rename_i hc
    rw [hc, Except.ok.injEq, Option.some.injEq]
  · rename_i hc
    simp [hc]

theorem component_iff {index : Nat} {c : Component} : e.component index = .ok c ↔ e.stack.items[index]? = some c := by
  unfold component ComponentStack.isEmpty
  split
  · rename_i hempty
    simp [List.isEmpty_iff.1 hempty]
  · exact live_iff

theorem live_eq_ok {index : Nat} {c : Component} (h : e.live index = .ok c) : c ∈ e.stack.items :=
  List.mem_of_getElem? (live_iff.1 h)

theorem superComponent_eq_ok {level : Level} {c : Component} (h : e.superComponent level = .ok c) :
    c ∈ e.stack.items := List.mem_of_getElem? (component_iff.1 h)

/-- Decomposing a live component is not refused. -/
theorem Alive.decompose_isOk (h : e.Alive f) {level : Level} {super : Component}
    (hsuper : e.superComponent level = .ok super) : ∃ e' level' kept hits,
      e.decompose level = .ok (e', level') ∧ Decomposed e level super kept hits e' level' :=
  Engine.decompose_isOk h.loaded hsuper (h.within (superComponent_eq_ok hsuper))

theorem Alive.decomposed (h : e.Alive f) {level level' : Level} (hd : e.decompose level = .ok (e', level')) :
    ∃ super kept hits, e.superComponent level = .ok super ∧ Decomposed e level super kept hits e' level' := by
  obtain ⟨super, hsuper, -⟩ := bind_eq_ok.1 hd
  obtain ⟨e₁, level₁, kept, hits, hok, hdec⟩ := h.decompose_isOk hsuper
  cases hd.symm.trans hok
  exact ⟨super, kept, hits, hsuper, hdec⟩

/-- Storing a count writes it to the entry of the component, or changes nothing. -/
theorem storeCount_eq_ok {index n : Nat} (h : e.storeCount index n = .ok e') :
    e' = e ∨ ∃ c s, e.live index = .ok c ∧ c.entry = some s ∧ e' = { e with cache := e.cache.storeCount s n } := by
  rw [storeCount, bind_eq_ok] at h
  obtain ⟨c, hc, h⟩ := h
  split at h
  · split at h
    · rename_i s hs
      cases h
      exact .inr ⟨c, s, hc, hs, rfl⟩
    · cases h
      exact .inl rfl
  · cases h
    exact .inl rfl

/-- The slots that are released are empty or hold solved entries, which may be evicted from now on. -/
theorem releaseAll_spec (slots : List Slot) : ∀ cache : Cache,
    (slots.foldl Cache.release cache).scheme = cache.scheme ∧
    (cache.WF → (slots.foldl Cache.release cache).WF) ∧
    (∀ s, s ∉ slots → Cache.entry? (slots.foldl Cache.release cache) s = cache.entry? s) ∧
    (∀ s en, Cache.entry? (slots.foldl Cache.release cache) s = some en →
      ∃ en', cache.entry? s = some en' ∧ en'.key = en.key ∧ en'.count = en.count) ∧
    ∀ s ∈ slots, ∀ en, Cache.entry? (slots.foldl Cache.release cache) s = some en →
      en.deletable = true ∧ en.isSolved = true := by
  induction slots with
  | nil => exact fun cache => ⟨rfl, id, fun _ _ => rfl, fun _ en hs => ⟨en, hs, rfl, rfl⟩, by simp⟩
  | cons t slots ih =>
    intro cache
    obtain ⟨hscheme, hwf, hother, hsome, hreleased⟩ := ih (cache.release t)
    refine ⟨hscheme.trans (Cache.scheme_release ..), fun h => hwf (h.release t), fun s hs => ?_, fun s en hs => ?_,
      fun s hs en hen => ?_⟩
    · rw [List.mem_cons, not_or] at hs
      exact (hother s hs.2).trans ((Cache.entry?_release ..).trans (if_neg (Ne.symm hs.1)))
    · obtain ⟨en', hen', hk, hn⟩ := hsome s en hs
      rw [Cache.entry?_release] at hen'
      split at hen'
      · obtain ⟨en'', hen'', hif⟩ := Option.bind_eq_some_iff.1 hen'
        split at hif
        · cases hif
          exact ⟨en'', hen'', hk, hn⟩
        · cases hif
      · exact ⟨en', hen', hk, hn⟩
    · by_cases hmem : s ∈ slots
      · exact hreleased s hmem en hen
      · -- The slot is released once, and later releases leave it alone.
        have hst : t = s := ((List.mem_cons.1 hs).resolve_right hmem).symm
        rw [List.foldl_cons, hother s hmem, Cache.entry?_release, if_pos hst] at hen
        obtain ⟨en', -, hif⟩ := Option.bind_eq_some_iff.1 hen
        split at hif
        · rename_i hsolved
          cases hif
          exact ⟨rfl, hsolved⟩
        · cases hif

/-! ## Releasing a level -/

/-- No component that stays has the slot of one that is released. -/
theorem Alive.not_released (h : e.Alive f) {level : Level} {c : Component} (hc : c ∈ (e.release level).stack.items)
    {s : Slot} (hs : c.entry = some s) : s ∉ (e.stack.items.drop level.offset).filterMap Component.entry := by
  have hnd := h.entries_nodup
  rw [← List.take_append_drop level.offset e.stack.items, List.filterMap_append, List.nodup_append] at hnd
  exact fun hmem => hnd.2.2 s (List.mem_filterMap.2 ⟨c, hc, hs⟩) s hmem rfl

/-- The entries of the components that stay are left alone. -/
theorem Alive.release_keeps (h : e.Alive f) {level : Level} {c : Component} (hc : c ∈ (e.release level).stack.items)
    {s : Slot} (hs : c.entry = some s) : (e.release level).cache.entry? s = e.cache.entry? s := by
  obtain ⟨-, -, hother, -⟩ := releaseAll_spec ((e.stack.items.drop level.offset).filterMap Component.entry) e.cache
  exact hother s (h.not_released hc hs)

theorem Alive.release (h : e.Alive f) (level : Level) : (e.release level).Alive f := by
  obtain ⟨hscheme, hwf, -⟩ := releaseAll_spec ((e.stack.items.drop level.offset).filterMap Component.entry) e.cache
  refine ⟨(h.loaded.setCache hscheme).setStack _, hwf h.wf, fun c hc => ?_, ?_⟩
  · refine (h.live c (List.mem_of_mem_take hc)).transfer hscheme fun s en hs hen => ?_
    exact ⟨en, (h.release_keeps hc hs).trans hen, .refl en⟩
  · exact h.entries_nodup.sublist ((List.take_sublist ..).filterMap _)

/-! ## Changes -/

/-- The ways in which the cache and the stack of a loaded engine change while no level is released. `P`
restricts the counts that are stored for components. -/
inductive Change (f : Formula) (P : Component → Nat → Prop) : Engine → Engine → Prop
  /-- Entries are evicted at most, and the stack has the same components. -/
  | settle {e e' : Engine} (loaded : e'.Loaded f) (evicts : e.cache.Evicts e'.cache)
      (wf : e.cache.WF → e'.cache.WF) (perm : e'.stack.items.Perm e.stack.items) : Change f P e e'
  | count {e : Engine} {c : Component} {s : Slot} {n : Nat} (mem : c ∈ e.stack.items) (entry : c.entry = some s)
      (right : P c n) : Change f P e { e with cache := e.cache.storeCount s n }
  | push {e : Engine} {c view : Component} (arises : f.Arises c view) :
      Change f P e { e with stack := e.stack.push c }
  | pushStored {e : Engine} {c view : Component} {key : PackedKey} {s : Slot} {cache : Cache}
      (arises : f.Arises c view) (encode : PackedKey.encode e.cache.scheme view = .ok key)
      (stores : e.cache.Stores key s cache) :
      Change f P e { e with cache, stack := e.stack.push { c with entry := some s } }

variable {P : Component → Nat → Prop}

/-- A change that leaves the slots of the cache as they are, such as a lookup. -/
theorem Change.of_slots (loaded : e'.Loaded f) (slots : e'.cache.slots = e.cache.slots)
    (free : e'.cache.free = e.cache.free) (scheme : e'.cache.scheme = e.cache.scheme)
    (perm : e'.stack.items.Perm e.stack.items) : Change f P e e' :=
  .settle loaded (.of_slots scheme slots) (fun h => h.congr slots free) perm

/-- The slot of a new entry is not the one of a live component. -/
theorem Alive.entry_ne (h : e.Alive f) {key : PackedKey} {s : Slot} {cache : Cache} (stores : e.cache.Stores key s cache)
    {c : Component} (hc : c ∈ e.stack.items) : c.entry ≠ some s := by
  intro hs
  obtain ⟨en, hen, -⟩ := h.exists_entry hc hs
  cases (stores.fresh h.wf).symm.trans hen

/-- A live component stays, and so does its entry. -/
theorem Change.keeps (hchange : Change f P e e') (h : e.Alive f) {c : Component} (hc : c ∈ e.stack.items) :
    c ∈ e'.stack.items ∧ ∀ s en, c.entry = some s → e.cache.entry? s = some en →
      ∃ en', e'.cache.entry? s = some en' ∧ en.Persists en' := by
  cases hchange with
  | settle loaded evicts wf perm =>
    refine ⟨perm.mem_iff.2 hc, fun s en hs hen => ?_⟩
    exact ⟨en, evicts.keeps hen (h.not_evictable hc hs hen), .refl en⟩
  | @count _ t n mem entry right =>
    refine ⟨hc, fun s en hs hen => ?_⟩
    show ∃ en', Cache.entry? (e.cache.storeCount t n) s = some en' ∧ _
    rw [Cache.entry?_storeCount, hen]
    split
    · exact ⟨_, rfl, .setCount en n _⟩
    · exact ⟨en, rfl, .refl en⟩
  | push arises => exact ⟨List.mem_append_left _ hc, fun s en _ hen => ⟨en, hen, .refl en⟩⟩
  | @pushStored _ view key t cache arises encode stores =>
    refine ⟨List.mem_append_left _ hc, fun s en hs hen => ?_⟩
    have hne : s ≠ t := fun hst => h.entry_ne stores hc (hst ▸ hs)
    exact ⟨en, stores.keeps s en hen (h.not_evictable hc hs hen) hne, .refl en⟩

theorem Change.alive (hchange : Change f P e e') (h : e.Alive f) : e'.Alive f := by
  have hold : e'.cache.scheme = e.cache.scheme → ∀ c ∈ e.stack.items, e'.cache.Awaits f c := fun hscheme c hc =>
    (h.live c hc).transfer hscheme (hchange.keeps h hc).2
  cases hchange with
  | settle loaded evicts wf perm =>
    refine ⟨loaded, wf h.wf, fun c hc => hold evicts.scheme c (perm.mem_iff.1 hc), ?_⟩
    exact (perm.filterMap _).nodup_iff.2 h.entries_nodup
  | @count c s n mem entry right =>
    have hscheme := e.cache.scheme_storeCount s n
    exact ⟨h.loaded.setCache hscheme, h.wf.storeCount s n, hold hscheme, h.entries_nodup⟩
  | @push c view arises =>
    refine ⟨h.loaded.setStack _, h.wf, fun d hd => ?_, ?_⟩
    · rcases List.mem_append.1 hd with hd | hd
      · exact hold rfl d hd
      · rw [List.mem_singleton.1 hd]
        exact .of_arises arises
    · simpa [ComponentStack.push, arises.complete.entry_eq] using h.entries_nodup
  | @pushStored c view key s cache arises encode stores =>
    obtain ⟨en, hen, hk, -, hdel⟩ := stores.stored h.wf
    refine ⟨(h.loaded.setCache stores.scheme).setStack _, stores.wf h.wf, fun d hd => ?_, ?_⟩
    · rcases List.mem_append.1 hd with hd | hd
      · exact hold stores.scheme d hd
      · rw [List.mem_singleton.1 hd]
        refine ⟨view, ?_, fun t ht => ?_⟩
        · show f.Arises { c with entry := none } view
          rw [← arises.complete.entry_eq]
          exact arises
        · cases ht
          exact ⟨en, hen, hdel, by rw [hk]; exact stores.scheme ▸ encode⟩
    · simp only [ComponentStack.push, List.filterMap_append, List.filterMap_cons, List.filterMap_nil]
      refine List.nodup_append.2 ⟨h.entries_nodup, List.nodup_singleton _, fun t hmem u hu => ?_⟩
      rw [List.mem_singleton.1 hu]
      rintro rfl
      obtain ⟨d, hd, hds⟩ := List.mem_filterMap.1 hmem
      exact h.entry_ne stores hd hds

/-- Several changes, one after the other. -/
def Changes (f : Formula) (P : Component → Nat → Prop) : Engine → Engine → Prop := Relation.ReflTransGen (Change f P)

theorem Changes.alive (hchanges : Changes f P e e') (h : e.Alive f) : e'.Alive f := by
  induction hchanges with
  | refl => exact h
  | tail _ hchange ih => exact hchange.alive ih

theorem Changes.keeps (hchanges : Changes f P e e') (h : e.Alive f) {c : Component} (hc : c ∈ e.stack.items) :
    c ∈ e'.stack.items ∧ ∀ s en, c.entry = some s → e.cache.entry? s = some en →
      ∃ en', e'.cache.entry? s = some en' ∧ en.Persists en' := by
  induction hchanges with
  | refl => exact ⟨hc, fun s en _ hen => ⟨en, hen, .refl en⟩⟩
  | tail hchanges hchange ih =>
    obtain ⟨hmem, hkeep⟩ := ih
    obtain ⟨hmem', hkeep'⟩ := hchange.keeps (Changes.alive hchanges h) hmem
    refine ⟨hmem', fun s en hs hen => ?_⟩
    obtain ⟨en₁, hen₁, hp₁⟩ := hkeep s en hs hen
    obtain ⟨en₂, hen₂, hp₂⟩ := hkeep' s en₁ hs hen₁
    exact ⟨en₂, hen₂, hp₁.trans hp₂⟩

/-! ## The changes of the operations -/

theorem setAssignment_changes (h : e.Alive f) {a : Assignment} (ha : a.varCount = e.assignment.varCount) :
    Changes f P e { e with assignment := a } :=
  .single (.of_slots (h.loaded.setAssignment ha) rfl rfl rfl (.refl _))

theorem setPass_changes (h : e.Alive f) {p : Pass} (hp : p.Fits f) : Changes f P e { e with pass := p } :=
  .single (.of_slots (h.loaded.setPass hp) rfl rfl rfl (.refl _))

theorem configure_changes (h : e.Alive f) (u : ConfigUpdate) : Changes f P e (e.configure u) := by
  have hevicts := e.cache.setLimits_evicts (e.config.apply u)
  refine .single (.settle ⟨h.loaded.adjacency, h.loaded.assignment, h.loaded.pass, ?_⟩ hevicts
    (fun hwf => hwf.setLimits _) (.refl _))
  exact h.loaded.scheme.trans (congrArg _ hevicts.scheme.symm)

theorem assign_changes (h : e.Alive f) {l : Lit} (ha : e.assign l = .ok e') : Changes f P e e' := by
  rw [assign_eq_ok ha]
  exact setAssignment_changes h (Assignment.varCount_set ..)

theorem unassign_changes (h : e.Alive f) {v : Var} (ha : e.unassign v = .ok e') : Changes f P e e' := by
  rw [unassign_eq_ok ha]
  exact setAssignment_changes h (Assignment.varCount_clear ..)

theorem beginPass_changes (h : e.Alive f) {level : Level} (hb : e.beginPass level = .ok e') : Changes f P e e' := by
  simp only [beginPass, bind_eq_ok] at hb
  obtain ⟨super, hsuper, hb⟩ := hb
  cases hb
  exact setPass_changes h (Pass.begin_reads (h.within (superComponent_eq_ok hsuper)) h.loaded.pass).1

/-- Storing a count that is right for the component at the position, if there is one. -/
theorem storeCount_changes {index n : Nat} (hright : ∀ c, e.live index = .ok c → P c n)
    (hstore : e.storeCount index n = .ok e') : Changes f P e e' := by
  rcases storeCount_eq_ok hstore with rfl | ⟨c, s, hc, hs, rfl⟩
  · exact .refl
  · exact .single (.count (live_eq_ok hc) hs (hright c hc))

theorem register_changes {parent : Option Slot} {level level' : Level} {fd : Found} (h : e.Alive f)
    (ha : f.Arises fd.component fd.view) (hr : register parent (e, level) fd = .ok (e', level')) :
    Changes f P e e' := by
  obtain ⟨key, hkey⟩ := h.loaded.encode_isOk ha.complete.view_within
  have hlookup : ∀ {cache : Cache}, cache.slots = e.cache.slots → cache.free = e.cache.free →
      cache.scheme = e.cache.scheme → Change f P e { e with cache } := fun hslots hfree hscheme =>
    .of_slots (h.loaded.setCache hscheme) hslots hfree hscheme (.refl _)
  rcases register_cases parent level hkey with
    ⟨n, cache, -, hslots, hfree, hscheme, hreg⟩ | ⟨slot, cache, hs, hreg⟩ | ⟨cache, hslots, hfree, hscheme, hreg⟩
  all_goals
    rw [hreg] at hr
    cases hr
  · exact .single (hlookup hslots hfree hscheme)
  · exact .single (.pushStored ha hkey hs)
  · exact .tail (.single (hlookup hslots hfree hscheme)) (.push (e := { e with cache }) ha)

theorem registerAll_changes {parent : Option Slot} : ∀ (fds : List Found) {e : Engine} {level : Level}, e.Alive f →
    (∀ fd ∈ fds, f.Arises fd.component fd.view) → ∀ {e' : Engine} {level' : Level},
    fds.foldlM (register parent) (e, level) = .ok (e', level') → Changes f P e e'
  | [], _, _, _, _, _, _, hr => by
    cases hr
    exact .refl
  | fd :: fds, e, level, h, ha, e', level', hr => by
    rw [List.forall_mem_cons] at ha
    rw [List.foldlM_cons, bind_eq_ok] at hr
    obtain ⟨⟨e₁, level₁⟩, hr₁, hr⟩ := hr
    have hfirst := register_changes (P := P) h ha.1 hr₁
    exact hfirst.trans (registerAll_changes fds (hfirst.alive h) ha.2 hr)

theorem decompose_changes (h : e.Alive f) {level level' : Level} (hd : e.decompose level = .ok (e', level')) :
    Changes f P e e' := by
  simp only [decompose, bind_eq_ok, mapError_eq_ok] at hd
  obtain ⟨super, hsuper, ⟨e₁, level₁⟩, hfold, hd⟩ := hd
  cases hd
  have hmem := superComponent_eq_ok hsuper
  have hpass := setPass_changes (P := P) h (h.loaded.passOver_decomposes (h.within hmem)).fits
  have hregister := registerAll_changes (P := P) _ (hpass.alive h) (fun fd hfd => h.arises hmem hfd) hfold
  have h₁ := hregister.alive (hpass.alive h)
  have hperm : (e₁.stack.sortFrom e₁.order e.stack.size).items.Perm e₁.stack.items := by
    have hp := (e₁.order.perm (e₁.stack.items.drop e.stack.size)).append_left (e₁.stack.items.take e.stack.size)
    rwa [List.take_append_drop] at hp
  exact (hpass.trans hregister).tail (.of_slots (h₁.loaded.setStack _) rfl rfl rfl hperm)

theorem nextComponent_changes (h : e.Alive f) {level level' : Level} {found : Bool}
    (hn : e.nextComponent level = .ok (found, e', level')) : Changes f P e e' := by
  obtain ⟨level₁, -, -, ⟨-, rfl, -⟩ | ⟨-, hd⟩⟩ := nextComponent_cases hn
  · exact .refl
  · exact decompose_changes h hd

end Engine

end ModelCount
