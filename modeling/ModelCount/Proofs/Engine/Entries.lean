/-
The live components and the entries of the cache. In every state that calls lead to, whatever their
arguments, the slots of the live components are the slots of the entries that may not be deleted, one
each, and the key of such an entry is read back as the component that holds it. The other entries are
solved.
-/
import ModelCount.Proofs.Engine.Live
import ModelCount.Proofs.Packing.Decode

namespace ModelCount

namespace Engine

variable {f : Formula} {e e' : Engine}

/-! ## The invariant -/

/-- The slots that the live components hold. -/
def heldSlots (e : Engine) : List Slot := e.stack.items.filterMap Component.entry

theorem mem_heldSlots {s : Slot} : s ∈ e.heldSlots ↔ ∃ c ∈ e.stack.items, c.entry = some s := List.mem_filterMap

/-- Every entry is held by a live component, or it is solved and may be deleted. -/
structure Paired (e : Engine) (f : Formula) : Prop extends e.Alive f where
  held : ∀ s en, e.cache.entry? s = some en → s ∈ e.heldSlots ∨ en.deletable = true ∧ en.isSolved = true

theorem new_paired (order : BlockOrder) : Paired { Engine.new with order } {} := by
  refine ⟨⟨⟨rfl, rfl, ⟨rfl, rfl, rfl⟩, rfl⟩, Cache.wf_new _ _, ?_, List.nodup_nil⟩, fun s en hs => ?_⟩
  · rintro c ⟨⟩
  · have hlt : s < 1 := Cache.lt_size_of_some hs
    obtain rfl : s = 0 := Nat.lt_one_iff.1 hlt
    cases hs

theorem load_paired {e₀ : Engine} (h : e₀.load f = .ok e) : e.Paired f := by
  obtain ⟨-, -, -, entry, hitems, -, hentries⟩ := load_eq_ok h
  refine ⟨load_alive h, fun s en hs => .inl (mem_heldSlots.2 ⟨{ root f with entry }, ?_, (hentries s en hs).1⟩)⟩
  rw [hitems]
  exact List.mem_singleton_self _

/-- The slots held are those of the entries that may not be deleted. -/
theorem Paired.mem_heldSlots_iff (h : e.Paired f) (s : Slot) :
    s ∈ e.heldSlots ↔ ∃ en, e.cache.entry? s = some en ∧ en.deletable = false := by
  constructor
  · intro hs
    obtain ⟨c, hc, hcs⟩ := mem_heldSlots.1 hs
    exact h.exists_entry hc hcs
  · rintro ⟨en, hen, hdel⟩
    refine (h.held s en hen).resolve_right fun hfree => ?_
    cases hdel.symm.trans hfree.1

/-! ## Changes -/

theorem Change.paired {P : Component → Nat → Prop} (hchange : Change f P e e') (h : e.Paired f) : e'.Paired f := by
  refine ⟨hchange.alive h.toAlive, fun s en hs => ?_⟩
  cases hchange with
  | settle loaded evicts wf perm =>
    exact (h.held s en (evicts.entry_of_some hs)).imp_left (perm.filterMap _).mem_iff.2
  | @count c t n mem entry right =>
    dsimp only at hs
    rw [Cache.entry?_storeCount] at hs
    split at hs
    · obtain ⟨en', hen', rfl⟩ := Option.map_eq_some_iff.1 hs
      exact (h.held s en' hen').imp_right fun hfree => ⟨hfree.1, rfl⟩
    · exact h.held s en hs
  | push arises =>
    refine (h.held s en hs).imp_left fun hheld => ?_
    rw [heldSlots, ComponentStack.push, List.filterMap_append]
    exact List.mem_append_left _ hheld
  | @pushStored c view key t cache arises encode stores =>
    have hpush : heldSlots { e with cache, stack := e.stack.push { c with entry := some t } } = e.heldSlots ++ [t] :=
      List.filterMap_append
    rw [hpush]
    rcases stores.origin s en hs with rfl | hold
    · exact .inl (List.mem_append_right _ (List.mem_singleton_self _))
    · exact (h.held s en hold).imp_left (List.mem_append_left _)

theorem Changes.paired {P : Component → Nat → Prop} (hchanges : Changes f P e e') (h : e.Paired f) : e'.Paired f := by
  induction hchanges with
  | refl => exact h
  | tail _ hchange ih => exact hchange.paired ih

/-- A released entry is gone, or it is solved and may be deleted. -/
theorem Paired.release (h : e.Paired f) (level : Level) : (e.release level).Paired f := by
  refine ⟨h.toAlive.release level, fun s en hs => ?_⟩
  obtain ⟨-, -, hother, -, hreleased⟩ :=
    releaseAll_spec ((e.stack.items.drop level.offset).filterMap Component.entry) e.cache
  by_cases hmem : s ∈ (e.stack.items.drop level.offset).filterMap Component.entry
  · exact .inr (hreleased s hmem en hs)
  · -- Nothing happened to the entry, and the component that holds it stays.
    refine (h.held s en ((hother s hmem).symm.trans hs)).imp_left fun hheld => ?_
    rw [heldSlots, ← List.take_append_drop level.offset e.stack.items, List.filterMap_append] at hheld
    exact (List.mem_append.1 hheld).resolve_right hmem

/-! ## Calls -/

/-- One call on an engine, other than loading, that is not refused. -/
inductive Call : Engine → Engine → Prop
  | configure (e : Engine) (u : ConfigUpdate) : Call e (e.configure u)
  | assign {e e' : Engine} {l : Lit} (h : e.assign l = .ok e') : Call e e'
  | unassign {e e' : Engine} {v : Var} (h : e.unassign v = .ok e') : Call e e'
  | beginPass {e e' : Engine} {level : Level} (h : e.beginPass level = .ok e') : Call e e'
  | decompose {e e' : Engine} {level level' : Level} (h : e.decompose level = .ok (e', level')) : Call e e'
  | nextComponent {e e' : Engine} {level level' : Level} {found : Bool}
      (h : e.nextComponent level = .ok (found, e', level')) : Call e e'
  | storeCount {e e' : Engine} {index n : Nat} (h : e.storeCount index n = .ok e') : Call e e'
  | release (e : Engine) (level : Level) : Call e (e.release level)

/-- The states that calls lead to, whatever their arguments and in any order. A call that is refused
leaves the engine as it is. -/
inductive Reachable : Engine → Prop
  | new (order : BlockOrder) : Reachable { Engine.new with order }
  | load {e e' : Engine} {f : Formula} (h : Reachable e) (hload : e.load f = .ok e') : Reachable e'
  | call {e e' : Engine} (h : Reachable e) (hcall : Call e e') : Reachable e'

/-- A call changes the engine under the formula that is loaded, or releases a level. -/
theorem Call.cases_changes (hcall : Call e e') (h : e.Alive f) :
    Changes f (fun _ _ => True) e e' ∨ ∃ level, e' = e.release level := by
  cases hcall with
  | configure u => exact .inl (configure_changes h u)
  | assign ha => exact .inl (assign_changes h ha)
  | unassign ha => exact .inl (unassign_changes h ha)
  | beginPass hb => exact .inl (beginPass_changes h hb)
  | decompose hd => exact .inl (decompose_changes h hd)
  | nextComponent hn => exact .inl (nextComponent_changes h hn)
  | storeCount hs => exact .inl (storeCount_changes (fun _ _ => trivial) hs)
  | release level => exact .inr ⟨level, rfl⟩

theorem Call.paired (hcall : Call e e') (h : e.Paired f) : e'.Paired f := by
  rcases hcall.cases_changes h.toAlive with hchanges | ⟨level, rfl⟩
  · exact hchanges.paired h
  · exact h.release level

/-- A component that stays live keeps its entry. -/
theorem Call.persists (hcall : Call e e') (h : e.Alive f) {c : Component} (hc : c ∈ e.stack.items)
    (hc' : c ∈ e'.stack.items) {s : Slot} (hs : c.entry = some s) {en : CacheEntry} (hen : e.cache.entry? s = some en) :
    ∃ en', e'.cache.entry? s = some en' ∧ en.Persists en' := by
  rcases hcall.cases_changes h with hchanges | ⟨level, rfl⟩
  · exact (hchanges.keeps h hc).2 s en hs hen
  · exact ⟨en, (h.release_keeps hc' hs).trans hen, .refl en⟩

theorem Reachable.paired (h : e.Reachable) : ∃ f, e.Paired f := by
  induction h with
  | new order => exact ⟨{}, new_paired order⟩
  | load _ hload _ => exact ⟨_, load_paired hload⟩
  | call _ hcall ih =>
    obtain ⟨f, hf⟩ := ih
    exact ⟨f, hcall.paired hf⟩

/-! ## Keys -/

/-- The key of the entry of a live component is read back as its variables and some of its clauses. -/
theorem Alive.decode_key (h : e.Alive f) (hmax : f.varCount ≤ Var.maxId) {c : Component} (hc : c ∈ e.stack.items)
    {s : Slot} (hs : c.entry = some s) :
    ∃ en d, e.cache.entry? s = some en ∧ en.key.decode e.cache.scheme = .ok d ∧ d.vars = c.vars ∧
      d.clauses.Sublist c.clauses := by
  obtain ⟨view, ha, hentry⟩ := h.live c hc
  obtain ⟨en, hen, -, hkey⟩ := hentry s hs
  have hcomplete := ha.complete
  have hvars := hcomplete.vars_sublist
  have hclauses := hcomplete.view_clauses.trans hcomplete.clauses_sublist
  have hview : view.vars = c.vars := hcomplete.view_vars
  refine ⟨en, { vars := c.vars, clauses := view.clauses }, hen, ?_, rfl, hcomplete.view_clauses⟩
  refine PackedKey.decode_encode hkey ?_ ?_ fun v hv => (Var.mem_firstN.1 (hvars.subset hv)).trans hmax
  · rw [hview]
    exact (sortIds_eq_self (List.pairwise_map.2 ((firstN_pairwise _).sublist hvars))).symm
  · exact (sortIds_eq_self (List.pairwise_map.2 ((firstN_clauses_pairwise _).sublist hclauses))).symm

/-- Live components and entries that may not be deleted correspond to each other in every state that
calls lead to. No two live components hold one slot, the slots they hold are those of the entries that
may not be deleted, and every other entry is solved. The key of a held entry is read back as the
variables of its component and some of its clauses, as long as every variable has an id within the
bound. An entry persists while its component is live, and no call stops halfway: a component that is
live is always split. -/
theorem heldSlots_correspond (h : e.Reachable) :
    e.heldSlots.Nodup ∧
    (∀ s, s ∈ e.heldSlots ↔ ∃ en, e.cache.entry? s = some en ∧ en.deletable = false) ∧
    (∀ s en, e.cache.entry? s = some en → en.deletable = true → en.isSolved = true) ∧
    (e.varCount ≤ Var.maxId → ∀ c ∈ e.stack.items, ∀ s, c.entry = some s → ∃ en d, e.cache.entry? s = some en ∧
      en.key.decode e.cache.scheme = .ok d ∧ d.vars = c.vars ∧ d.clauses ⊆ c.clauses) ∧
    (∀ e', Call e e' → ∀ c ∈ e.stack.items, c ∈ e'.stack.items → ∀ s en, c.entry = some s →
      e.cache.entry? s = some en → ∃ en', e'.cache.entry? s = some en' ∧ en.Persists en') ∧
    ∀ level super, e.superComponent level = .ok super → ∃ e' level', e.decompose level = .ok (e', level') := by
  obtain ⟨f, hf⟩ := h.paired
  refine ⟨hf.entries_nodup, hf.mem_heldSlots_iff, fun s en hs hdel => ?_, fun hmax c hc s hs => ?_,
    fun e' hcall c hc hc' s en hs hen => hcall.persists hf.toAlive hc hc' hs hen, fun level super hsuper => ?_⟩
  · rcases hf.held s en hs with hheld | hfree
    · obtain ⟨en', hen', hdel'⟩ := (hf.mem_heldSlots_iff s).1 hheld
      rw [hs] at hen'
      cases hen'
      cases hdel.symm.trans hdel'
    · exact hfree.2
  · obtain ⟨en, d, hen, hd, hvars, hclauses⟩ := hf.decode_key (hf.loaded.assignment ▸ hmax) hc hs
    exact ⟨en, d, hen, hd, hvars, hclauses.subset⟩
  · obtain ⟨e', level', _, _, hok, -⟩ := decompose_isOk hf.loaded hsuper (hf.within (superComponent_eq_ok hsuper))
    exact ⟨e', level', hok⟩

/-- A component is counted and then released with its level: its entry stays, solved, and the other
entry of the level goes. -/
theorem heldSlots_correspond_twoParts :
    ∃ (e₁ e₂ e₃ : Engine) (level : Level),
      Engine.new.load (.ofCnf .twoParts) = .ok e₁ ∧ e₁.decompose (.new 0 1) = .ok (e₂, level) ∧
      e₂.storeCount 2 3 = .ok e₃ ∧ e₃.heldSlots = [1, 3, 2] ∧ (e₃.release level).heldSlots = [1] ∧
      (∀ s, s ∈ (e₃.release level).heldSlots ↔
        ∃ en, (e₃.release level).cache.entry? s = some en ∧ en.deletable = false) ∧
      (∃ en, (e₃.release level).cache.entry? 2 = some en ∧ en.deletable = true ∧ en.isSolved = true) ∧
      ∀ c ∈ e₃.stack.items, ∀ s, c.entry = some s → ∃ en d, e₃.cache.entry? s = some en ∧
        en.key.decode e₃.cache.scheme = .ok d ∧ d.vars = c.vars ∧ d.clauses ⊆ c.clauses := by
  have hcalls : (do
      let e₁ ← Engine.new.load (.ofCnf .twoParts)
      let d ← e₁.decompose (.new 0 1)
      let e₃ ← d.1.storeCount 2 3
      let e₄ := e₃.release d.2
      return (e₃.heldSlots, e₃.varCount, e₄.heldSlots, (e₄.cache.entry? 2).map CacheEntry.deletable)) =
        (.ok ([1, 3, 2], 7, [1], some true) : Except EngineError _) := by decide +kernel
  simp only [bind_eq_ok] at hcalls
  obtain ⟨e₁, hload, ⟨e₂, level⟩, hd, e₃, hstore, h⟩ := hcalls
  injection h with h
  simp only [Prod.mk.injEq] at h
  obtain ⟨hheld, hcount, hleft, hdel⟩ := h
  have hreach : e₃.Reachable := .call (.call (.load (.new .stable) hload) (.decompose hd)) (.storeCount hstore)
  obtain ⟨-, -, -, hkeys, -, -⟩ := heldSlots_correspond hreach
  obtain ⟨-, hiff, hsolved, -, -, -⟩ := heldSlots_correspond (.call hreach (.release e₃ level))
  obtain ⟨en, hen, hdel⟩ := Option.map_eq_some_iff.1 hdel
  exact ⟨e₁, e₂, e₃, level, hload, hd, hstore, hheld, hleft, hiff, ⟨en, hen, hdel, hsolved 2 en hen hdel⟩,
    hkeys (by rw [hcount]; decide)⟩

end Engine

end ModelCount
