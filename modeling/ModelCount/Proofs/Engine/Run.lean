/-
Runs of a loaded engine in which only residual counts are stored. A count comes under the key of the
component it counts, and since a key determines its component, what a lookup finds is the residual
count of the component that is looked up.
-/
import ModelCount.Proofs.Engine.Live

namespace ModelCount

/-! ## The invariant -/

/-- The key is the one of a component that arises, and the number is its residual count. -/
def Formula.Counts (f : Formula) (s : PackingScheme) (key : PackedKey) (n : Nat) : Prop :=
  ∃ c view, f.Arises c view ∧ PackedKey.encode s view = .ok key ∧ n = f.residualCount c

/-- A count that is right for one component with the key is right for all. -/
theorem Formula.Counts.eq_residualCount {f : Formula} {s : PackingScheme} {key : PackedKey} {n : Nat}
    (h : f.Counts s key n) {c view : Component} (hc : f.Arises c view) (hkey : PackedKey.encode s view = .ok key) :
    n = f.residualCount c := by
  obtain ⟨d, viewD, hd, hkeyD, rfl⟩ := h
  obtain ⟨hv, hk⟩ := hd.eq_of_words_eq hc hkeyD hkey rfl
  exact (Formula.residual_congr hv hk).2

namespace Engine

variable {f : Formula} {e e' : Engine}

structure Sound (e : Engine) (f : Formula) : Prop extends e.Alive f where
  solved : ∀ s en n, e.cache.entry? s = some en → en.count = some n → f.Counts e.cache.scheme en.key n

theorem load_sound {e₀ : Engine} (h : e₀.load f = .ok e) : e.Sound f := by
  obtain ⟨-, -, -, entry, -, -, hsolved⟩ := load_eq_ok h
  refine ⟨load_alive h, fun s en n hs hn => ?_⟩
  rw [(hsolved s en hs).2] at hn
  cases hn

/-! ## Changes that store residual counts -/

/-- The engine may change, and a count that is stored for a component is its residual count. -/
abbrev Counting (f : Formula) : Engine → Engine → Prop := Changes f fun c n => n = f.residualCount c

theorem Change.sound (hchange : Change f (fun c n => n = f.residualCount c) e e') (h : e.Sound f) : e'.Sound f := by
  refine ⟨hchange.alive h.toAlive, fun s en n hs hn => ?_⟩
  cases hchange with
  | settle loaded evicts wf perm =>
    rw [evicts.scheme]
    exact h.solved s en n (evicts.entry_of_some hs) hn
  | @count c t m mem entry right =>
    dsimp only at hs ⊢
    rw [Cache.scheme_storeCount]
    rw [Cache.entry?_storeCount] at hs
    split at hs
    · rename_i hts
      -- The entry of the component has its key, and it has the residual count now.
      obtain ⟨view, ha, hentry⟩ := h.live c mem
      obtain ⟨en', hen', -, hkey⟩ := hentry t entry
      rw [← hts, hen'] at hs
      cases hs
      cases hn
      exact ⟨_, view, ha, hkey, right.trans (Formula.residual_congr rfl rfl).2⟩
    · exact h.solved s en n hs hn
  | push arises => exact h.solved s en n hs hn
  | pushStored arises encode stores =>
    dsimp only at hs ⊢
    rw [stores.scheme]
    exact h.solved s en n (stores.solved s en n hs hn) hn

theorem Counting.sound (hchanges : Counting f e e') (h : e.Sound f) : e'.Sound f := by
  induction hchanges with
  | refl => exact h
  | tail _ hchange ih => exact hchange.sound ih

theorem Sound.setAssignment (h : e.Sound f) {a : Assignment} (ha : a.varCount = e.assignment.varCount) :
    Sound { e with assignment := a } f := Counting.sound (setAssignment_changes h.toAlive ha) h

theorem Sound.configure (h : e.Sound f) (u : ConfigUpdate) : (e.configure u).Sound f :=
  Counting.sound (configure_changes h.toAlive u) h

theorem release_sound (h : e.Sound f) (level : Level) : (e.release level).Sound f := by
  refine ⟨h.toAlive.release level, fun s en n hs hn => ?_⟩
  obtain ⟨hscheme, -, -, hsome, -⟩ :=
    releaseAll_spec ((e.stack.items.drop level.offset).filterMap Component.entry) e.cache
  obtain ⟨en', hen', hk, hn'⟩ := hsome s en hs
  rw [← hk]
  exact hscheme ▸ h.solved s en' n hen' (hn'.trans hn)

/-- Storing the residual count of a live component. -/
theorem storeCount_sound (h : e.Sound f) {index : Nat} {c : Component} (hc : e.live index = .ok c)
    (hstore : e.storeCount index (f.residualCount c) = .ok e') : e'.Sound f := by
  refine Counting.sound (storeCount_changes (fun d hd => ?_) hstore) h
  rw [hc] at hd
  cases hd
  rfl

theorem decompose_sound (h : e.Sound f) {level level' : Level} (hd : e.decompose level = .ok (e', level')) :
    e'.Sound f := Counting.sound (decompose_changes h.toAlive hd) h

/-- Every count that answers a component is its residual count. -/
theorem Sound.answered (h : e.Sound f) {level : Level} {super : Component} (hsuper : super ∈ e.stack.items)
    {kept : List (Found × Option Slot)} {hits : List (Found × Nat)} {e' : Engine} {level' : Level}
    (hd : Decomposed e level super kept hits e' level') : ∀ hit ∈ hits, hit.2 = f.residualCount hit.1.component := by
  intro hit hhit
  obtain ⟨s, en, hen, hn, hkey⟩ := hd.answered hit hhit
  have hfd : hit.1 ∈ (e.passOver super).found :=
    hd.perm.mem_iff.1 (List.mem_append_right _ (List.mem_map_of_mem hhit))
  exact (h.solved s en _ hen hn).eq_residualCount (h.arises hsuper hfd) hkey

/-! ## Runs -/

/-- One operation on a loaded engine. A count that is stored is the residual count of its component. -/
inductive Step (f : Formula) : Engine → Engine → Prop
  | assign {e e' : Engine} {l : Lit} (h : e.assign l = .ok e') : Step f e e'
  | unassign {e e' : Engine} {v : Var} (h : e.unassign v = .ok e') : Step f e e'
  | configure (e : Engine) (u : ConfigUpdate) : Step f e (e.configure u)
  | beginPass {e e' : Engine} {level : Level} (h : e.beginPass level = .ok e') : Step f e e'
  | decompose {e e' : Engine} {level level' : Level} (h : e.decompose level = .ok (e', level')) : Step f e e'
  | nextComponent {e e' : Engine} {level level' : Level} {found : Bool}
      (h : e.nextComponent level = .ok (found, e', level')) : Step f e e'
  | release (e : Engine) (level : Level) : Step f e (e.release level)
  | storeCount {e e' : Engine} {index : Nat} {c : Component} (hc : e.live index = .ok c)
      (h : e.storeCount index (f.residualCount c) = .ok e') : Step f e e'

theorem Step.sound (hstep : Step f e e') (h : e.Sound f) : e'.Sound f := by
  cases hstep with
  | assign ha => exact Counting.sound (assign_changes h.toAlive ha) h
  | unassign ha => exact Counting.sound (unassign_changes h.toAlive ha) h
  | configure u => exact h.configure u
  | beginPass hb => exact Counting.sound (beginPass_changes h.toAlive hb) h
  | decompose hd => exact decompose_sound h hd
  | nextComponent hn => exact Counting.sound (nextComponent_changes h.toAlive hn) h
  | release level => exact release_sound h level
  | storeCount hc hs => exact storeCount_sound h hc hs

/-- What every run keeps. -/
theorem Sound.run (h : e.Sound f) (hrun : Relation.ReflTransGen (Step f) e e') : e'.Sound f := by
  induction hrun with
  | refl => exact h
  | tail _ hstep ih => exact hstep.sound ih

/-- Cache hits are sound in every run. A solved entry holds the residual count of the component its key
was made from, a live component finds its own entry in its slot, and every decomposition goes through
and multiplies the level by exactly the residual counts of the components the cache answers. -/
theorem hits_sound {e₀ e₁ : Engine} (hload : e₀.load f = .ok e₁) (hrun : Relation.ReflTransGen (Step f) e₁ e) :
    (∀ s en n, e.cache.entry? s = some en → en.count = some n →
      (∃ c view, f.Arises c view ∧ PackedKey.encode e.cache.scheme view = .ok en.key) ∧
      ∀ c view, f.Arises c view → PackedKey.encode e.cache.scheme view = .ok en.key → n = f.residualCount c) ∧
    (∀ c ∈ e.stack.items, ∃ view, f.Arises { c with entry := none } view ∧ ∀ s, c.entry = some s →
      ∃ en, e.cache.entry? s = some en ∧ PackedKey.encode e.cache.scheme view = .ok en.key) ∧
    ∀ level super, e.superComponent level = .ok super →
      ∃ e' level' kept hits, e.decompose level = .ok (e', level') ∧ Decomposed e level super kept hits e' level' ∧
        level' = (hits.foldl (fun l hit => l.times (f.residualCount hit.1.component))
          ((e.passOver super).isolated.foldl (fun l _ => l.times 2) level)).setEnd e'.stack.size ∧
        ∀ hit ∈ hits, hit.2 = f.residualCount hit.1.component := by
  have h := (load_sound hload).run hrun
  refine ⟨fun s en n hs hn => ?_, fun c hc => ?_, fun level super hsuper => ?_⟩
  · obtain ⟨c, view, ha, hkey, -⟩ := h.solved s en n hs hn
    exact ⟨⟨c, view, ha, hkey⟩, fun c view ha hkey => (h.solved s en n hs hn).eq_residualCount ha hkey⟩
  · obtain ⟨view, ha, hentry⟩ := h.live c hc
    refine ⟨view, ha, fun s hs => ?_⟩
    obtain ⟨en, hen, -, hkey⟩ := hentry s hs
    exact ⟨en, hen, hkey⟩
  · have hmem := superComponent_eq_ok hsuper
    obtain ⟨e', level', kept, hits, hok, hd⟩ := decompose_isOk h.loaded hsuper (h.within hmem)
    have hanswered := h.answered hmem hd
    refine ⟨e', level', kept, hits, hok, hd, ?_, hanswered⟩
    rw [hd.level]
    congr 1
    exact List.foldl_ext _ _ _ fun l hit hhit => by rw [hanswered hit hhit]

/-- The component of two variables is counted, and the next decomposition of the root component finds its
count. -/
theorem hits_sound_twoParts :
    ∃ (e₁ e₂ e₃ e₄ : Engine) (level level' : Level) (c : Component) (hits : List (Found × Nat)),
      Engine.new.load (.ofCnf .twoParts) = .ok e₁ ∧ e₁.decompose (.new 0 1) = .ok (e₂, level) ∧
      e₂.live 2 = .ok c ∧ e₂.storeCount 2 ((Formula.ofCnf .twoParts).residualCount c) = .ok e₃ ∧
      e₃.decompose level = .ok (e₄, level') ∧ hits.length = 1 ∧
      ∀ hit ∈ hits, hit.2 = (Formula.ofCnf .twoParts).residualCount hit.1.component := by
  let pair : Component := { vars := [⟨1, by decide⟩, ⟨2, by decide⟩], clauses := [], entry := some 2 }
  have hcount : (Formula.ofCnf .twoParts).residualCount pair = 3 := by decide +kernel
  have hcalls : (do
      let e₁ ← Engine.new.load (.ofCnf .twoParts)
      let d ← e₁.decompose (.new 0 1)
      let c ← d.1.live 2
      let e₃ ← d.1.storeCount 2 3
      let super ← e₃.superComponent d.2
      let d' ← e₃.decompose d.2
      return (c, (e₃.passOver super).found.length, e₃.stack.size, d'.1.stack.size)) =
        (.ok (pair, 2, 3, 4) : Except EngineError _) := by decide +kernel
  simp only [bind_eq_ok] at hcalls
  obtain ⟨e₁, hload, ⟨e₂, level⟩, hd, c, hc, e₃, hstore, super, hsuper, ⟨e₄, level'⟩, hd', h⟩ := hcalls
  injection h with h
  simp only [Prod.mk.injEq] at h
  obtain ⟨rfl, hfound, hsize, hsize'⟩ := h
  have hrun := (Relation.ReflTransGen.single (Step.decompose hd)).tail (Step.storeCount hc (hcount.symm ▸ hstore))
  obtain ⟨-, -, hdecompose⟩ := hits_sound hload hrun
  obtain ⟨e, l, kept, hits, hok, hdec, -, hhits⟩ := hdecompose level super hsuper
  obtain ⟨rfl, rfl⟩ : e₄ = e ∧ level' = l := by
    rw [hd'] at hok
    simpa using hok
  refine ⟨e₁, e₂, e₃, e₄, level, level', pair, hits, hload, hd, hc, hcount.symm ▸ hstore, hd', ?_, hhits⟩
  -- One of the two components is kept, so the other one is answered.
  have hparts := hdec.perm.length_eq
  obtain ⟨block, hitems, hblock, -⟩ := hdec.stack
  rw [ComponentStack.size, hitems, List.length_append, hblock.length_eq, List.length_map] at hsize'
  rw [List.length_append, List.length_map, List.length_map, hfound] at hparts
  rw [ComponentStack.size] at hsize
  omega

end Engine

end ModelCount
