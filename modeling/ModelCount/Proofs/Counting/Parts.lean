/-
The parts of a component under a settled assignment. A component owns what the assignment leaves of the
formula if every open clause with an unassigned variable of it is one of its clauses and has all its
unassigned variables in it. The components that a pass finds are owned again, the isolated variables
are in no open clause, and so the numbers of models of the parts multiply.
-/
import ModelCount.Proofs.Counting.Propagation
import ModelCount.Proofs.Engine.Decomposition
import ModelCount.Proofs.Residual

namespace ModelCount

namespace Formula

variable {f : Formula} {a : Assignment}

/-! ## Clauses by kind -/

theorem pending_lits_iff {k : ClauseId} : Pending a (f.lits k) ↔ ¬ f.Satisfied a k := by
  simp [Pending, Satisfied]

theorem mem_clauses_of_long {k : ClauseId} (hk : k ∈ f.clauseIds) : f.lits k ∈ f.clauses :=
  mem_clauses.2 (.inr (.inr (lits_mem hk)))

/-- A settled clause is open only if it is binary or long. -/
theorem Settled.cases (h : f.Settled a) {c : List Lit} (hc : c ∈ f.clauses) (hp : Pending a c) :
    (∃ b ∈ f.binaries, [b.1, b.2] = c) ∨ ∃ k ∈ f.clauseIds, ¬ f.Satisfied a k ∧ f.lits k = c := by
  rcases mem_clauses.1 hc with ⟨l, -, rfl⟩ | hb | hl
  · have h2 := (h _ hc hp).trans (List.length_filter_le ..)
    simp at h2
  · exact .inl hb
  · obtain ⟨k, hk, rfl⟩ := exists_lits_of_mem hl
    exact .inr ⟨k, hk, pending_lits_iff.1 hp, rfl⟩

/-- Both literals of a settled binary clause are unassigned, unless one is true. -/
theorem Settled.binary (h : f.Settled a) {b : Lit × Lit} (hb : b ∈ f.binaries) (hp : Pending a [b.1, b.2]) :
    a.isActive b.1.var = true ∧ a.isActive b.2.var = true := by
  have h2 := h _ (mem_clauses.2 (.inr (.inl ⟨b, hb, rfl⟩))) hp
  by_cases h1 : a.isActive b.1.var = true <;> by_cases h2' : a.isActive b.2.var = true <;>
    simp [openLits, h1, h2'] at h2 ⊢

/-- A long clause with two unassigned literals has an unassigned variable other than the given one. -/
theorem exists_open_ne {k : ClauseId} (hk : k ∈ f.clauseIds) (h2 : 2 ≤ (openLits a (f.lits k)).length) (x : Var) :
    ∃ l ∈ f.lits k, a.isActive l.var = true ∧ x ≠ l.var := by
  have hnd : ((openLits a (f.lits k)).map Lit.var).Nodup :=
    ((List.filter_sublist (l := f.lits k)).map _).nodup (f.long_nodup _ (lits_mem hk))
  match he : openLits a (f.lits k) with
  | [] | [_] => simp [he] at h2
  | l :: m :: rest =>
    rw [he] at hnd
    obtain ⟨hl, hla⟩ := mem_openLits.1 (he ▸ List.mem_cons_self .. : l ∈ openLits a (f.lits k))
    obtain ⟨hm, hma⟩ := mem_openLits.1 (he ▸ List.mem_cons_of_mem _ (List.mem_cons_self ..) : m ∈ openLits a (f.lits k))
    by_cases hx : x = l.var
    · refine ⟨m, hm, hma, fun hxm => ?_⟩
      simp only [List.map_cons, List.nodup_cons, List.mem_cons, not_or] at hnd
      exact hnd.1.1 (hx.symm.trans hxm)
    · exact ⟨l, hl, hla, hx⟩

/-- A settled long clause has an unassigned variable other than the given one. -/
theorem Settled.exists_ne (h : f.Settled a) {k : ClauseId} (hk : k ∈ f.clauseIds) (hsat : ¬ f.Satisfied a k)
    (x : Var) : ∃ l ∈ f.lits k, a.isActive l.var = true ∧ x ≠ l.var :=
  exists_open_ne hk (h _ (mem_clauses_of_long hk) (pending_lits_iff.2 hsat)) x

end Formula

/-! ## Owning what is left -/

namespace Component

/-- Every open clause with an unassigned variable of the component is one of its clauses, and has all
its unassigned variables in it. -/
structure Owns (c : Component) (f : Formula) (a : Assignment) : Prop where
  within : c.Within f
  binary : ∀ l m, (l, m) ∈ f.binaries ∨ (m, l) ∈ f.binaries → l.var ∈ c.vars → a.isActive l.var = true →
    m.var ∈ c.vars ∨ a.isTrue m = true
  long : ∀ k ∈ f.clauseIds, ¬ f.Satisfied a k → ∀ l ∈ f.lits k, l.var ∈ c.vars → a.isActive l.var = true →
    k ∈ c.clauses
  clause : ∀ k ∈ c.clauses, ¬ f.Satisfied a k → ∀ l ∈ f.lits k, a.isActive l.var = true → l.var ∈ c.vars

/-- All variables of the component are unassigned, and all its clauses are open and have some of them. -/
structure Fresh (c : Component) (f : Formula) (a : Assignment) : Prop extends Owns c f a where
  active : ∀ v ∈ c.vars, a.isActive v = true
  touches : ∀ k ∈ c.clauses, ¬ f.Satisfied a k ∧ ∃ l ∈ f.lits k, l.var ∈ c.vars

variable {c : Component} {f : Formula} {a : Assignment}

theorem owns_root (f : Formula) (a : Assignment) : (Engine.root f).Owns f a where
  within := Engine.within_root f
  binary _ _ h _ _ := .inl (Var.mem_firstN.2 (h.elim (fun h => (f.binary_le _ h).2) fun h => (f.binary_le _ h).1))
  long _ hk _ _ _ _ _ := hk
  clause _ hk _ l hl _ := Var.mem_firstN.2 (f.long_le _ (Formula.lits_mem hk) l hl)

/-- A component keeps what it owns while more variables are assigned. -/
theorem Owns.mono (h : c.Owns f a) {a' : Assignment} (hext : a'.Extends a) : c.Owns f a' := by
  have hsat : ∀ {k}, ¬ f.Satisfied a' k → ¬ f.Satisfied a k := fun hn ⟨l, hl, ht⟩ => hn ⟨l, hl, hext.isTrue ht⟩
  exact ⟨h.within,
    fun l m hb hl hactive => (h.binary l m hb hl (hext.isActive hactive)).imp_right hext.isTrue,
    fun k hk hn l hl hlc hactive => h.long k hk (hsat hn) l hl hlc (hext.isActive hactive),
    fun k hk hn l hl hactive => h.clause k hk (hsat hn) l hl (hext.isActive hactive)⟩

/-- The entry of a component does not matter. -/
theorem Owns.setEntry (h : c.Owns f a) (entry : Option Slot) : ({ c with entry } : Component).Owns f a :=
  ⟨h.within.of_sublist (.refl _) (.refl _), h.binary, h.long, h.clause⟩

theorem Fresh.setEntry (h : c.Fresh f a) (entry : Option Slot) : ({ c with entry } : Component).Fresh f a :=
  ⟨h.toOwns.setEntry entry, h.active, h.touches⟩

/-- The unassigned variables of the component. -/
def openVars (c : Component) (a : Assignment) : Finset Var := c.vars.toFinset.filter fun v => a.isActive v = true

theorem mem_openVars {v : Var} : v ∈ c.openVars a ↔ c.TakesPart a v := by
  simp [openVars, TakesPart]

theorem Owns.block (h : c.Owns f a) (hcount : a.varCount = f.varCount) (hsettled : f.Settled a) :
    f.Block a (c.openVars a) := by
  refine ⟨fun v hv => hcount ▸ h.within.var_id_le v (mem_openVars.1 hv).1, fun v hv => (mem_openVars.1 hv).2,
    fun cl hcl hp l hl hlv m hm hma => mem_openVars.2 ⟨?_, hma⟩⟩
  obtain ⟨hlc, hla⟩ := mem_openVars.1 hlv
  rcases hsettled.cases hcl hp with ⟨b, hb, rfl⟩ | ⟨k, hk, hsat, rfl⟩
  · have hnot : ∀ {l m}, (l, m) ∈ f.binaries ∨ (m, l) ∈ f.binaries → l.var ∈ c.vars → a.isActive l.var = true →
        m ∈ [b.1, b.2] → m.var ∈ c.vars := fun hb' hlc hla hm =>
      (h.binary _ _ hb' hlc hla).resolve_right fun ht => by rw [hp _ hm] at ht; cases ht
    simp only [List.mem_cons, List.not_mem_nil, or_false] at hl hm
    rcases hl with rfl | rfl <;> rcases hm with rfl | rfl
    · exact hlc
    · exact hnot (.inl hb) hlc hla (by simp)
    · exact hnot (.inr hb) hlc hla (by simp)
    · exact hlc
  · exact h.clause k (h.long k hk hsat l hl hlc hla) hsat m hm hma

theorem Fresh.openVars_eq (h : c.Fresh f a) : c.openVars a = c.vars.toFinset :=
  Finset.filter_true_of_mem fun v hv => h.active v (List.mem_toFinset.1 hv)

/-- Under a settled assignment, the open clauses around a fresh component are its residual formula. -/
theorem Fresh.mem_pending (h : c.Fresh f a) (hsettled : f.Settled a) (clause : List Lit) :
    clause ∈ f.pending a c.vars.toFinset ↔ clause ∈ f.residual c := by
  rw [Formula.mem_pending, Formula.residual, List.mem_append, List.mem_map, List.mem_map]
  simp only [List.mem_toFinset]
  constructor
  · rintro ⟨cl, hcl, hp, ⟨l, hl, hlc⟩, rfl⟩
    rcases hsettled.cases hcl hp with ⟨b, hb, rfl⟩ | ⟨k, hk, hsat, rfl⟩
    · have hboth : b.1.var ∈ c.vars ∧ b.2.var ∈ c.vars := by
        have hnot : ∀ {m}, m ∈ [b.1, b.2] → ¬ a.isTrue m = true := fun hm => by rw [hp _ hm]; simp
        simp only [List.mem_cons, List.not_mem_nil, or_false] at hl
        rcases hl with rfl | rfl
        · exact ⟨hlc, (h.binary _ _ (.inl hb) hlc (h.active _ hlc)).resolve_right (hnot (by simp))⟩
        · exact ⟨(h.binary _ _ (.inr hb) hlc (h.active _ hlc)).resolve_right (hnot (by simp)), hlc⟩
      refine .inl ⟨b, List.mem_filter.2 ⟨hb, by simpa using hboth⟩, ?_⟩
      simp [hboth.1, hboth.2]
    · exact .inr ⟨k, h.long k hk hsat l hl hlc (h.active _ hlc), rfl⟩
  · rintro (⟨b, hb, rfl⟩ | ⟨k, hk, rfl⟩)
    · obtain ⟨hb, hboth⟩ := List.mem_filter.1 hb
      rw [decide_eq_true_eq] at hboth
      have hnot : ∀ l : Lit, l.var ∈ c.vars → a.isTrue l = false := fun l hl =>
        Assignment.isTrue_of_isActive (h.active _ hl)
      refine ⟨[b.1, b.2], Formula.mem_clauses.2 (.inr (.inl ⟨b, hb, rfl⟩)), ?_, ⟨b.1, by simp, hboth.1⟩, ?_⟩
      · intro l hl
        simp only [List.mem_cons, List.not_mem_nil, or_false] at hl
        rcases hl with rfl | rfl
        · exact hnot _ hboth.1
        · exact hnot _ hboth.2
      · simp [hboth.1, hboth.2]
    · obtain ⟨hsat, htouch⟩ := h.touches k hk
      exact ⟨f.lits k, Formula.mem_clauses_of_long (h.within.clause_mem k hk), Formula.pending_lits_iff.2 hsat, htouch,
        rfl⟩

end Component

/-! ## What a pass leaves -/

section

variable {f : Formula} {a : Assignment} {super : Component}

/-- Under a settled assignment, no open clause has an isolated variable. -/
theorem Component.Owns.not_isolated (h : super.Owns f a) (hsettled : f.Settled a) {c : List Lit}
    (hc : c ∈ f.clauses) (hp : Pending a c) {l : Lit} (hl : l ∈ c) : ¬ f.Isolated a super l.var := by
  rintro ⟨⟨hlv, hla⟩, hiso⟩
  rcases hsettled.cases hc hp with ⟨b, hb, rfl⟩ | ⟨k, hk, hsat, rfl⟩
  · have hactive := hsettled.binary hb hp
    have hlink : ∀ {l m}, (l, m) ∈ f.binaries ∨ (m, l) ∈ f.binaries → super.TakesPart a l.var →
        a.isActive m.var = true → a.isTrue m = false → (f.linkGraph a super).Adj l.var m.var :=
      fun {l m} hb' hlt hma hm => by
        have hmv := (h.binary l m hb' hlt.1 hlt.2).resolve_right (by simp [hm])
        exact Formula.linkGraph_of_shares hlt ⟨hmv, hma⟩ (Formula.shares_of_mem hb')
    have hlp : l = b.1 ∨ l = b.2 := by simpa using hl
    rcases hlp with rfl | rfl
    · exact hiso _ (hlink (.inl hb) ⟨hlv, hla⟩ hactive.2 (hp b.2 (by simp)))
    · exact hiso _ (hlink (.inr hb) ⟨hlv, hla⟩ hactive.1 (hp b.1 (by simp)))
  · obtain ⟨m, hm, hma, hne⟩ := hsettled.exists_ne hk hsat l.var
    have hkc := h.long k hk hsat l hl hlv hla
    exact hiso m.var (Formula.linkGraph_of_mentions ⟨hlv, hla⟩ ⟨h.clause k hkc hsat m hm hma, hma⟩ hne hkc hsat
      ⟨l, hl, rfl⟩ ⟨m, hm, rfl⟩)

/-- A component that a pass over an owning component finds owns its part. -/
theorem Found.Splits.fresh {fd : Found} (hs : fd.Splits f a super) (h : super.Owns f a) (hsettled : f.Settled a) :
    fd.component.Fresh f a := by
  have hin : ∀ {v w}, v ∈ fd.component.vars → v = w ∨ (f.linkGraph a super).Adj v w → w ∈ fd.component.vars :=
    fun {v w} hv hlink => hlink.elim (fun heq => heq ▸ hv) fun hadj => (hs.mem_iff v hv w).2 hadj.reachable
  have htouches : ∀ k ∈ fd.component.clauses, ∃ l ∈ f.lits k, l.var ∈ fd.component.vars := fun k hk => by
    rcases hs.mentions k hk with ⟨v, hv, l, hl, rfl⟩ | ⟨x, hx, l, hl, rfl⟩
    · exact ⟨l, hl, hv⟩
    · exact (h.not_isolated hsettled (Formula.mem_clauses_of_long (Formula.mem_clauseIds_of_lits hl))
        (Formula.pending_lits_iff.2 (hs.not_satisfied k hk)) hl hx).elim
  refine ⟨⟨(Engine.within_of_splits h.within hs).1, fun l m hb hl hla => ?_, fun k hk hsat l hl hlv hla => ?_,
    fun k hk hsat l hl hla => ?_⟩, fun v hv => (hs.takesPart v hv).2, fun k hk => ⟨hs.not_satisfied k hk, htouches k hk⟩⟩
  · by_cases hm : a.isTrue m = true
    · exact .inr hm
    have hlt := hs.takesPart _ hl
    have hmv := (h.binary l m hb hlt.1 hlt.2).resolve_right hm
    have hlf : a.isTrue l = false := Assignment.isTrue_of_isActive hla
    have hmf : a.isTrue m = false := by simpa using hm
    -- The clause has no true literal, so both its literals are unassigned.
    have hma : a.isActive m.var = true := by
      rcases hb with hb | hb
      · exact (hsettled.binary hb (by simp [Pending, hlf, hmf])).2
      · exact (hsettled.binary hb (by simp [Pending, hlf, hmf])).1
    exact .inl (hin hl (.inr (Formula.linkGraph_of_shares hlt ⟨hmv, hma⟩ (Formula.shares_of_mem hb))))
  · exact hs.clause_mem k (h.long k hk hsat l hl (hs.takesPart _ hlv).1 hla) hsat l.var hlv ⟨l, hl, rfl⟩
  · obtain ⟨m, hm, hmv⟩ := htouches k hk
    have hkc := hs.clauses_sublist.subset hk
    have hlv := h.clause k hkc hsat l hl hla
    by_cases hne : m.var = l.var
    · exact hne ▸ hmv
    · exact hin hmv (.inr (Formula.linkGraph_of_mentions (hs.takesPart _ hmv) ⟨hlv, hla⟩ hne hkc hsat ⟨m, hm, rfl⟩
        ⟨l, hl, rfl⟩))

namespace Split.Decomposes

variable {s : Split}

theorem mem_openVars (hd : s.Decomposes f a super) {v : Var} : v ∈ super.openVars a ↔ v ∈ s.vars := by
  rw [hd.vars_perm.mem_iff, List.mem_filter, Component.mem_openVars]
  rfl

/-- The open clauses around the super-component are the residual formulas of what the pass found. -/
theorem mem_pending (hd : s.Decomposes f a super) (h : super.Owns f a) (hsettled : f.Settled a)
    (hcount : a.varCount = f.varCount) (clause : List Lit) :
    clause ∈ f.pending a (super.openVars a) ↔ clause ∈ s.found.flatMap fun fd => f.residual fd.component := by
  have hfresh : ∀ fd ∈ s.found, fd.component.Fresh f a := fun fd hfd => (hd.found fd hfd).fresh h hsettled
  have hsub : ∀ fd ∈ s.found, ∀ v ∈ fd.component.vars, v ∈ super.openVars a := fun fd hfd v hv =>
    hd.mem_openVars.2 (Split.mem_vars.2 (.inr ⟨fd, hfd, hv⟩))
  -- A clause that has a variable of a part has its unassigned variables there.
  have hfilter : ∀ fd ∈ s.found, ∀ c ∈ f.clauses, Pending a c → (∃ l ∈ c, l.var ∈ fd.component.vars) →
      (c.filter fun l => l.var ∈ super.openVars a) = c.filter fun l => l.var ∈ fd.component.vars.toFinset :=
    fun fd hfd c hc hp ⟨l, hl, hlv⟩ => by
      refine List.filter_congr fun m hm => decide_eq_decide.2 ⟨fun hmv => ?_, fun hmv => ?_⟩
      · have hb := (hfresh fd hfd).block hcount hsettled
        rw [(hfresh fd hfd).openVars_eq] at hb
        exact hb.closed c hc hp l hl (List.mem_toFinset.2 hlv) m hm (Component.mem_openVars.1 hmv).2
      · exact hsub fd hfd _ (List.mem_toFinset.1 hmv)
  rw [List.mem_flatMap, Formula.mem_pending]
  constructor
  · rintro ⟨c, hc, hp, ⟨l, hl, hlv⟩, rfl⟩
    obtain hiso | ⟨fd, hfd, hlf⟩ := Split.mem_vars.1 (hd.mem_openVars.1 hlv)
    · exact (h.not_isolated hsettled hc hp hl ((hd.mem_isolated _).1 hiso)).elim
    · refine ⟨fd, hfd, ((hfresh fd hfd).mem_pending hsettled _).1 (Formula.mem_pending.2 ⟨c, hc, hp, ?_, ?_⟩)⟩
      · exact ⟨l, hl, List.mem_toFinset.2 hlf⟩
      · exact (hfilter fd hfd c hc hp ⟨l, hl, hlf⟩).symm
  · rintro ⟨fd, hfd, hclause⟩
    obtain ⟨c, hc, hp, ⟨l, hl, hlv⟩, rfl⟩ := Formula.mem_pending.1 (((hfresh fd hfd).mem_pending hsettled _).2 hclause)
    rw [List.mem_toFinset] at hlv
    exact ⟨c, hc, hp, ⟨l, hl, hsub fd hfd _ hlv⟩, hfilter fd hfd c hc hp ⟨l, hl, hlv⟩⟩

/-- Clauses that fall apart into clauses over the components have as many models as the parts together:
two for every isolated variable, and those of every component. -/
theorem card_models_found (hd : s.Decomposes f a super) (hfit : super.Within f) {clauses : List (List Lit)}
    (part : Found → List (List Lit)) (hclauses : ∀ clause, clause ∈ clauses ↔ clause ∈ s.found.flatMap part)
    (hover : ∀ fd ∈ s.found, Over fd.component.vars.toFinset (part fd)) :
    (models (super.openVars a) clauses).card =
      2 ^ s.isolated.length * (s.found.map fun fd => (models fd.component.vars.toFinset (part fd)).card).prod := by
  let parts : List (Finset Var × List (List Lit)) :=
    s.isolated.map (fun x => ({x}, [])) ++ s.found.map fun fd => (fd.component.vars.toFinset, part fd)
  have hvars : allVars Prod.fst parts = super.openVars a := by
    ext v
    rw [mem_allVars, hd.mem_openVars, Split.mem_vars]
    simp only [parts, List.mem_append, List.mem_map]
    constructor
    · rintro ⟨p, ⟨x, hx, rfl⟩ | ⟨fd, hfd, rfl⟩, hv⟩
      · exact .inl (Finset.mem_singleton.1 hv ▸ hx)
      · exact .inr ⟨fd, hfd, List.mem_toFinset.1 hv⟩
    · rintro (hv | ⟨fd, hfd, hv⟩)
      · exact ⟨_, .inl ⟨v, hv, rfl⟩, Finset.mem_singleton_self v⟩
      · exact ⟨_, .inr ⟨fd, hfd, rfl⟩, List.mem_toFinset.2 hv⟩
  have hparts : ∀ clause, clause ∈ clauses ↔ clause ∈ parts.flatMap Prod.snd := fun clause => by
    rw [hclauses]
    simp [parts, List.flatMap_append, List.flatMap_map]
  have hdisj : parts.Pairwise fun p q => Disjoint p.1 q.1 := by
    have hnd := hd.nodup hfit
    rw [Split.vars, List.nodup_append] at hnd
    refine List.pairwise_append.2 ⟨List.pairwise_map.2 (hnd.1.imp fun hne => Finset.disjoint_singleton.2 hne),
      List.pairwise_map.2 ((hd.found_disjoint hfit).imp fun hdis => List.disjoint_toFinset_iff_disjoint.2 hdis),
      fun p hp q hq => ?_⟩
    obtain ⟨x, hx, rfl⟩ := List.mem_map.1 hp
    obtain ⟨fd, hfd, rfl⟩ := List.mem_map.1 hq
    refine Finset.disjoint_singleton_left.2 fun hxf => ?_
    exact hnd.2.2 x hx x (List.mem_flatMap.2 ⟨fd, hfd, List.mem_toFinset.1 hxf⟩) rfl
  have hover' : ∀ p ∈ parts, Over p.1 p.2 := fun p hp => by
    rcases List.mem_append.1 hp with hp | hp
    · obtain ⟨x, -, rfl⟩ := List.mem_map.1 hp
      intro clause hc
      cases hc
    · obtain ⟨fd, hfd, rfl⟩ := List.mem_map.1 hp
      exact hover fd hfd
  rw [models_congr _ hparts, ← hvars, card_models_parts Prod.fst Prod.snd hdisj hover']
  simp only [parts, List.map_append, List.map_map, List.prod_append, Function.comp_def, card_models_nil,
    Finset.card_singleton, Nat.pow_one, List.map_const', List.prod_replicate]

/-- The open clauses around the super-component have as many models as its parts together: two for
every isolated variable, and the residual count for every component. -/
theorem card_models (hd : s.Decomposes f a super) (h : super.Owns f a) (hsettled : f.Settled a)
    (hcount : a.varCount = f.varCount) :
    (models (super.openVars a) (f.pending a (super.openVars a))).card =
      2 ^ s.isolated.length * (s.found.map fun fd => f.residualCount fd.component).prod := by
  refine hd.card_models_found h.within (fun fd => f.residual fd.component)
    (fun clause => hd.mem_pending h hsettled hcount clause) fun fd hfd clause hc => ?_
  exact f.over_pending a _ clause ((((hd.found fd hfd).fresh h hsettled).mem_pending hsettled clause).2 hc)

end Split.Decomposes

end

end ModelCount
