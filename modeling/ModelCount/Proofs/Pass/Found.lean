/-
What one search of a pass finds. Between two searches the unseen variables are closed under links, so a
search finds a connected component of the link graph, and a variable that is reached alone is isolated.
A clause that is left seen by a search keeps nobody from being found: it mentions an isolated variable,
and no other variable of it takes part.
-/
import ModelCount.Pass.Split
import ModelCount.Proofs.Pass.Marks

namespace ModelCount

namespace Pass

variable {f : Formula} {a : Assignment} {super : Component}

/-! ## Between two searches -/

/-- The state between two searches. A clause that is still seen was reached from an isolated variable. -/
structure Between (f : Formula) (a : Assignment) (super : Component) (p : Pass) : Prop
    extends Ready f a super p where
  seen : ∀ c, p.clauseMark c = .seen →
    c ∈ super.clauses ∧ ¬ f.Satisfied a c ∧ ∃ x, f.Isolated a super x ∧ f.Mentions c x
  not_seenWhole : ∀ c, p.clauseMark c ≠ .seenWhole

theorem begin_between (hfit : super.Within f) {p : Pass} (hp : p.Fits f) : Between f a super (p.begin a super) := by
  obtain ⟨hfits, hv, hc⟩ := begin_reads (a := a) hfit hp
  refine ⟨⟨hfits, fun v => ?_, fun v => ?_, fun c h => ?_, fun v w _ hadj => ?_, fun c hmem _ v _ _ => ?_⟩,
    fun c h => ?_, fun c h => ?_⟩
  · rw [hv]; unfold Component.TakesPart; split <;> simp_all
  · rw [hv]; split <;> simp
  · rw [hc] at h; by_contra hn; simp [hn] at h
  · exact (hv w).trans (if_pos hadj.2.2.1)
  · rw [hc, if_pos hmem]
  · rw [hc] at h; split at h <;> cases h
  · rw [hc] at h; split at h <;> cases h

section

variable {p₀ p : Pass} {seed : Var}

theorem Searched.seed_mem (hs : Searched f a super p₀ seed p) : seed ∈ p.worklist.toList :=
  (hs.mem_worklist seed).2 (.refl seed)

/-- The worklist is one connected component. -/
theorem Searched.mem_iff (hs : Searched f a super p₀ seed p) {v : Var} (hv : v ∈ p.worklist.toList) (w : Var) :
    w ∈ p.worklist.toList ↔ (f.linkGraph a super).Reachable v w := by
  have hseed := (hs.mem_worklist v).1 hv
  rw [hs.mem_worklist]
  exact ⟨hseed.symm.trans, hseed.trans⟩

theorem Searched.clauseMark_placed (hs : Searched f a super p₀ seed p) {c : ClauseId}
    (h : p₀.clauseMark c = .placed) : p.clauseMark c = .placed := by
  have hk := hs.kept c fun h0 => by rw [h] at h0; cases h0
  exact hk.trans h

/-- A clause that lost its mark mentions a variable of the worklist and is not satisfied. -/
theorem Searched.met_cases (hs : Searched f a super p₀ seed p) {c : ClauseId} (hc : p.met c = true) :
    (p.clauseMark c = p₀.clauseMark c ∧ p₀.clauseMark c ≠ .unseen) ∨
      (p₀.clauseMark c = .unseen ∧ p.clauseMark c = f.metMark a super c ∧ ¬ f.Satisfied a c ∧
        ∃ v ∈ p.worklist.toList, f.Mentions c v) := by
  by_cases h : p₀.clauseMark c = .unseen ∧ ∃ v ∈ p.worklist.toList, f.Mentions c v
  · have hm := hs.met c h.1 h.2
    refine .inr ⟨h.1, hm, fun hsat => ?_, h.2⟩
    simp [Pass.met, hm, Formula.metMark_of_satisfied super hsat] at hc
  · have hk := hs.kept c fun h0 v hv hcv => h ⟨h0, v, hv, hcv⟩
    exact .inl ⟨hk, fun h0 => by simp [Pass.met, hk, h0] at hc⟩

/-- Once the component of a search is placed, the pass is ready for the next search. -/
theorem Searched.ready (hr : Ready f a super p₀) (hs : Searched f a super p₀ seed p) {q : Pass} (hq : q.Fits f)
    (hv : ∀ v, q.varMark v = if v ∈ p.worklist.toList then .placed else p₀.varMark v)
    (hc : ∀ c, q.clauseMark c = .unseen ↔ p.clauseMark c = .unseen) : Ready f a super q := by
  have hleft : ∀ v, q.varMark v = .unseen → v ∉ p.worklist.toList ∧ p₀.varMark v = .unseen := fun v h => by
    rw [hv] at h
    split at h
    · cases h
    · exact ⟨‹_›, h⟩
  refine ⟨hq, fun v => ?_, fun v => ?_, fun c h => ?_, fun v w hvu hadj => ?_, fun c hmem hsat v hcv hvu => ?_⟩
  · rw [hv]
    split
    · simpa using hr.takesPart (hs.unseen v ‹_›)
    · exact hr.outside v
  · rw [hv]
    split
    · simp
    · exact hr.not_seen v
  · have hp := (hc c).1 h
    by_cases h0 : p₀.clauseMark c = .unseen
    · exact hr.clause_mem c h0
    · rw [hs.kept c fun h => (h0 h).elim] at hp
      exact (h0 hp).elim
  · obtain ⟨hvn, hv0⟩ := hleft v hvu
    have hwn : w ∉ p.worklist.toList := fun hw => hvn ((hs.mem_iff hw v).2 hadj.symm.reachable)
    rw [hv, if_neg hwn]
    exact hr.closed v w hv0 hadj
  · obtain ⟨hvn, hv0⟩ := hleft v hvu
    have h0 := hr.clause_unseen c hmem hsat v hcv hv0
    -- The search did not come to the clause, since it would have reached `v` through it.
    have hk := hs.kept c fun _ u hu hcu => by
      have hne : u ≠ v := by rintro rfl; exact hvn hu
      have hadj := Formula.linkGraph_of_mentions (hr.takesPart (hs.unseen u hu)) (hr.takesPart hv0) hne hmem hsat
        hcu hcv
      exact hvn ((hs.mem_iff hu v).2 hadj.reachable)
    exact (hc c).2 (hk.trans h0)

/-- A search that reached the seed alone found it isolated. -/
theorem Searched.isolated_iff (hr : Ready f a super p₀) (hs : Searched f a super p₀ seed p) :
    p.worklist.size = 1 ↔ f.Isolated a super seed := by
  constructor
  · intro hsize
    obtain ⟨x, hx⟩ := List.length_eq_one_iff.1 (Array.length_toList.trans hsize)
    have hseed := hs.seed_mem
    rw [hx, List.mem_singleton] at hseed
    refine ⟨hr.takesPart (hs.unseen _ hs.seed_mem), fun w hadj => ?_⟩
    have hw := (hs.mem_worklist w).2 hadj.reachable
    rw [hx, List.mem_singleton] at hw
    exact hadj.1 (hseed.trans hw.symm)
  · intro hiso
    have hall : ∀ w ∈ p.worklist.toList, w = seed := fun w hw =>
      Formula.eq_of_reachable_isolated hiso ((hs.mem_worklist w).1 hw)
    rw [← Array.length_toList]
    refine Nat.le_antisymm ?_ (List.length_pos_of_mem hs.seed_mem)
    have hsub : p.worklist.toList ⊆ [seed] := fun w hw => List.mem_singleton.2 (hall w hw)
    exact (List.subperm_of_subset hs.nodup hsub).length_le

/-- Placing an isolated variable. Only clauses that mention it are newly seen. -/
theorem Searched.between_isolated (hb : Between f a super p₀) (hs : Searched f a super p₀ seed p)
    (hiso : f.Isolated a super seed) : Between f a super (p.markVar seed .placed) ∧
      ∀ v, (p.markVar seed .placed).varMark v = if v = seed then .placed else p₀.varMark v := by
  have hall : ∀ w, w ∈ p.worklist.toList ↔ w = seed := fun w => by
    rw [hs.mem_worklist]
    exact ⟨Formula.eq_of_reachable_isolated hiso, fun h => h ▸ .refl _⟩
  have hlt := index_lt_of_varMark (p := p) (v := seed) (by rw [hs.varMark, if_pos hs.seed_mem]; simp)
  have hq : ∀ v, (p.markVar seed .placed).varMark v = if v = seed then .placed else p₀.varMark v := fun v => by
    rw [varMark_markVar, hs.varMark]
    by_cases h : v = seed
    · subst h; simp [hlt]
    · simp [h, hall, Ne.symm h]
  refine ⟨⟨hs.ready hb.toReady ⟨(Table.size_set ..).trans hs.fits.vars, hs.fits.clauses, hs.fits.scores⟩
    (fun v => ?_) (fun c => Iff.rfl), fun c hc => ?_, fun c hc => ?_⟩, hq⟩
  · rw [hq]
    exact if_congr (hall v).symm rfl rfl
  · rw [clauseMark_markVar] at hc
    rcases hs.met_cases (c := c) (by simp [Pass.met, hc]) with ⟨hk, -⟩ | ⟨h0, -, hsat, v, hv, hcv⟩
    · exact hb.seen c (hk.symm.trans hc)
    · exact ⟨hb.clause_mem c h0, hsat, seed, hiso, (hall v).1 hv ▸ hcv⟩
  · rw [clauseMark_markVar] at hc
    rcases hs.met_cases (c := c) (by simp [Pass.met, hc]) with ⟨hk, -⟩ | ⟨h0, hm, hsat, v, hv, hcv⟩
    · exact hb.not_seenWhole c (hk.symm.trans hc)
    · have hnot := Formula.not_whole_of_isolated hiso (hb.clause_mem c h0) hsat ((hall v).1 hv ▸ hcv)
      rw [hm, Formula.metMark_of_not_satisfied super hsat, if_neg hnot] at hc
      cases hc

end

end Pass

/-! ## What is found -/

/-- A component that a pass over `super` found, and its view: a connected component of two variables
or more, with all clauses that link it. -/
structure Found.Splits (fd : Found) (f : Formula) (a : Assignment) (super : Component) : Prop where
  vars_sublist : fd.component.vars.Sublist super.vars
  clauses_sublist : fd.component.clauses.Sublist super.clauses
  view_eq : fd.view = ⟨fd.component.vars, fd.component.clauses.filter fun c => ¬ f.Whole a super c, none⟩
  entry_eq : fd.component.entry = none
  reached_perm : fd.reached.Perm fd.component.vars
  two_le : 2 ≤ fd.component.vars.length
  takesPart : ∀ v ∈ fd.component.vars, super.TakesPart a v
  mem_iff : ∀ v ∈ fd.component.vars, ∀ w, w ∈ fd.component.vars ↔ (f.linkGraph a super).Reachable v w
  clause_mem : ∀ c ∈ super.clauses, ¬ f.Satisfied a c → ∀ v ∈ fd.component.vars, f.Mentions c v →
    c ∈ fd.component.clauses
  not_satisfied : ∀ c ∈ fd.component.clauses, ¬ f.Satisfied a c
  /-- A clause is there for a variable of the component, or because the search of an isolated variable saw it. -/
  mentions : ∀ c ∈ fd.component.clauses,
    (∃ v ∈ fd.component.vars, f.Mentions c v) ∨ ∃ x, f.Isolated a super x ∧ f.Mentions c x

/-- A clause of the super-component without a true literal that mentions a variable of the component. -/
def Component.Touches (c : Component) (f : Formula) (a : Assignment) (super : Component) (k : ClauseId) : Prop :=
  k ∈ super.clauses ∧ ¬ f.Satisfied a k ∧ ∃ v ∈ c.vars, f.Mentions k v

/-- A clause of the super-component without a true literal that is left with an isolated variable alone. -/
def Formula.Lone (f : Formula) (a : Assignment) (super : Component) (k : ClauseId) : Prop :=
  k ∈ super.clauses ∧ ¬ f.Satisfied a k ∧
    ∃ x, f.Isolated a super x ∧ ∀ v, super.TakesPart a v → (f.Mentions k v ↔ v = x)

namespace Found.Splits

variable {fd : Found} {f : Formula} {a : Assignment} {super : Component}

theorem mem_of_touches (hs : fd.Splits f a super) {k : ClauseId} (h : fd.component.Touches f a super k) :
    k ∈ fd.component.clauses := by
  obtain ⟨hmem, hsat, v, hv, hkv⟩ := h
  exact hs.clause_mem k hmem hsat v hv hkv

theorem touches_or_lone (hs : fd.Splits f a super) {k : ClauseId} (h : k ∈ fd.component.clauses) :
    fd.component.Touches f a super k ∨ f.Lone a super k := by
  have hmem := hs.clauses_sublist.subset h
  have hsat := hs.not_satisfied k h
  rcases hs.mentions k h with hown | ⟨x, hx, hkx⟩
  · exact .inl ⟨hmem, hsat, hown⟩
  · -- Another variable of the clause that takes part would be linked to the isolated one.
    refine .inr ⟨hmem, hsat, x, hx, fun v hv => ⟨fun hkv => ?_, fun hvx => hvx ▸ hkx⟩⟩
    by_contra hne
    exact hx.2 v (Formula.linkGraph_of_mentions hx.1 hv (Ne.symm hne) hmem hsat hkx hkv)

theorem mem_iff_touches (hs : fd.Splits f a super) (hu : f.UnitFree a super) (k : ClauseId) :
    k ∈ fd.component.clauses ↔ fd.component.Touches f a super k := by
  constructor
  · intro h
    rcases hs.touches_or_lone h with htouches | ⟨hmem, hsat, x, hx, hall⟩
    · exact htouches
    · exact (hu.not_isolated hmem hsat ((hall x hx.1).2 rfl) hx).elim
  · exact hs.mem_of_touches

end Found.Splits

namespace Pass

variable {f : Formula} {a : Assignment} {super : Component}

section

variable {p₀ p : Pass} {seed : Var}

theorem Searched.mem_vars_iff (hr : Ready f a super p₀) (hs : Searched f a super p₀ seed p) (v : Var) :
    p.varMark v = .seen ↔ v ∈ p.worklist.toList := by
  rw [hs.varMark]
  split
  · exact iff_of_true rfl ‹_›
  · exact iff_of_false (hr.not_seen v) ‹_›

theorem Searched.mem_seen_iff (hb : Between f a super p₀) (hs : Searched f a super p₀ seed p) (v : Var) :
    v ∈ (super.vars.filter fun v => p.varMark v = .seen) ↔ v ∈ p.worklist.toList := by
  simp only [List.mem_filter, decide_eq_true_eq, hs.mem_vars_iff hb.toReady]
  exact and_iff_right_of_imp fun hv => (hb.takesPart (hs.unseen v hv)).1

/-- A clause that counts as met was met by this search, or is left from an isolated variable. -/
theorem Searched.of_met (hb : Between f a super p₀) (hs : Searched f a super p₀ seed p) {c : ClauseId}
    (hc : p.met c = true) : c ∈ super.clauses ∧ ¬ f.Satisfied a c ∧
      ((∃ v ∈ p.worklist.toList, f.Mentions c v) ∨ ∃ x, f.Isolated a super x ∧ f.Mentions c x) ∧
      (p.clauseMark c = .seen ↔ ¬ f.Whole a super c) := by
  rcases hs.met_cases hc with ⟨hk, -⟩ | ⟨h0, hm, hsat, hex⟩
  · have hseen : p₀.clauseMark c = .seen := by
      simp only [Pass.met, hk, Bool.or_eq_true, decide_eq_true_eq] at hc
      exact hc.resolve_right (hb.not_seenWhole c)
    obtain ⟨hmem, hsat, x, hx, hcx⟩ := hb.seen c hseen
    exact ⟨hmem, hsat, .inr ⟨x, hx, hcx⟩,
      iff_of_true (hk.trans hseen) (Formula.not_whole_of_isolated hx hmem hsat hcx)⟩
  · refine ⟨hb.clause_mem c h0, hsat, .inl hex, ?_⟩
    rw [hm, Formula.metMark_of_not_satisfied super hsat]
    split <;> simp_all

/-- What a search from a variable that is not isolated has seen is a component. -/
theorem Searched.splits (hfit : super.Within f) (hb : Between f a super p₀) (hs : Searched f a super p₀ seed p)
    (hiso : ¬ f.Isolated a super seed) {component view : Component}
    (hcomponent : component =
      { vars := super.vars.filter fun v => p.varMark v = .seen, clauses := super.clauses.filter p.met })
    (hview : view = { vars := component.vars, clauses := super.clauses.filter fun c => p.clauseMark c = .seen }) :
    Found.Splits ⟨component, view, p.worklist.toList⟩ f a super := by
  subst hcomponent hview
  have hvars := hs.mem_seen_iff hb
  have hsub : (super.vars.filter fun v => p.varMark v = .seen).Sublist super.vars := List.filter_sublist
  have hperm := (List.perm_ext_iff_of_nodup hs.nodup (hsub.nodup hfit.nodup_vars)).2 fun v => (hvars v).symm
  refine ⟨hsub, List.filter_sublist, ?_, rfl, hperm, ?_, fun v hv => hb.takesPart (hs.unseen v ((hvars v).1 hv)),
    fun v hv w => (hvars w).trans (hs.mem_iff ((hvars v).1 hv) w), fun c hc hsat v hv hcv => ?_, fun c hc => ?_,
    fun c hc => ?_⟩
  · simp only [List.filter_filter, Component.mk.injEq, true_and, and_true]
    refine List.filter_congr fun c _ => ?_
    by_cases hmc : p.met c = true
    · simp [hmc, (hs.of_met hb hmc).2.2.2]
    · have : p.clauseMark c ≠ .seen := fun h => hmc (by simp [Pass.met, h])
      simp [hmc, this]
  · show 2 ≤ (super.vars.filter fun v => p.varMark v = .seen).length
    rw [← hperm.length_eq]
    have hpos := List.length_pos_of_mem hs.seed_mem
    have hne : p.worklist.toList.length ≠ 1 := fun h => hiso ((hs.isolated_iff hb.toReady).1 h)
    omega
  · have hv' := (hvars v).1 hv
    have hm := hs.met c (hb.clause_unseen c hc hsat v hcv (hs.unseen v hv')) ⟨v, hv', hcv⟩
    refine List.mem_filter.2 ⟨hc, ?_⟩
    simp only [Pass.met, hm, Formula.metMark_of_not_satisfied super hsat]
    split <;> simp
  · exact (hs.of_met hb (List.mem_filter.1 hc).2).2.1
  · rcases (hs.of_met hb (List.mem_filter.1 hc).2).2.2.1 with ⟨v, hv, hcv⟩ | hx
    · exact .inl ⟨v, (hvars v).2 hv, hcv⟩
    · exact .inr hx

/-- Taking out what a search from a variable that is not isolated has found. -/
theorem Searched.takeComponent (hfit : super.Within f) (hb : Between f a super p₀)
    (hs : Searched f a super p₀ seed p) (hiso : ¬ f.Isolated a super seed) {component view : Component} {q : Pass}
    (hq : p.takeComponent super = (component, view, q)) :
    Found.Splits ⟨component, view, p.worklist.toList⟩ f a super ∧ (∀ v, v ∈ component.vars ↔ v ∈ p.worklist.toList) ∧
      Between f a super q ∧ ∀ v, q.varMark v = if v ∈ p.worklist.toList then .placed else p₀.varMark v := by
  obtain ⟨hcomponent, hview, hqv, hqc, hfits⟩ := takeComponent_reads (f := f) hfit.nodup_vars hfit.nodup_clauses hq
  have hqv' : ∀ v, q.varMark v = if v ∈ p.worklist.toList then .placed else p₀.varMark v := fun v => by
    simp only [hqv, hs.mem_vars_iff hb.toReady]
    by_cases hv : v ∈ p.worklist.toList
    · rw [if_pos ⟨(hb.takesPart (hs.unseen v hv)).1, hv⟩, if_pos hv]
    · rw [if_neg fun h => hv h.2, if_neg hv, hs.varMark, if_neg hv]
  have hqc' : ∀ c, q.clauseMark c = if p.met c = true then .placed else p.clauseMark c := fun c => by
    rw [hqc]
    exact if_congr (and_iff_right_of_imp fun h => (hs.of_met hb h).1) rfl rfl
  -- A clause that was met is placed, so none is left seen.
  refine ⟨hs.splits hfit hb hiso hcomponent hview, fun v => ?_,
    ⟨hs.ready hb.toReady (hfits hs.fits) hqv' fun c => ?_, fun c h => ?_, fun c h => ?_⟩, hqv'⟩
  · rw [hcomponent]
    exact hs.mem_seen_iff hb v
  · rw [hqc']
    split
    · rename_i h
      exact iff_of_false (by simp) fun h' => by simp [Pass.met, h'] at h
    · rfl
  · rw [hqc'] at h
    split at h
    · cases h
    · rename_i hn; exact (hn (by simp [Pass.met, h])).elim
  · rw [hqc'] at h
    split at h
    · cases h
    · rename_i hn; exact hn (by simp [Pass.met, h])

/-- What a search placed stays placed, and so does what a component takes: its clauses were not placed
before and are afterwards. -/
theorem Searched.clauses_taken (hfit : super.Within f) (hs : Searched f a super p₀ seed p) {component view : Component}
    {q : Pass} (hq : p.takeComponent super = (component, view, q)) :
    (∀ c ∈ component.clauses, p₀.clauseMark c ≠ .placed ∧ q.clauseMark c = .placed) ∧
      ∀ c, p₀.clauseMark c = .placed → q.clauseMark c = .placed := by
  obtain ⟨hcomponent, -, -, hqc, -⟩ := takeComponent_reads (f := f) hfit.nodup_vars hfit.nodup_clauses hq
  constructor
  · intro c hc
    rw [hcomponent] at hc
    obtain ⟨hmem, hmet⟩ := List.mem_filter.1 hc
    constructor
    · intro hplaced
      simp [Pass.met, hs.clauseMark_placed hplaced] at hmet
    · rw [hqc, if_pos ⟨hmem, hmet⟩]
  · intro c hc
    rw [hqc]
    split
    · rfl
    · exact hs.clauseMark_placed hc

end

end Pass

end ModelCount
