/-
A pass over a component of nested passes finds what a pass over the root component finds in it. Such a
component is closed: with an unassigned variable it has all unassigned variables that an open clause
links to it, and these clauses. So the links of the pass are the links of the root pass between the
variables of the component, and as long as no long clause is a unit the components found by the two
passes have the same variables, clauses and keys.
-/
import ModelCount.Proofs.Counting.Parts
import ModelCount.Proofs.Engine.Live

namespace ModelCount

/-- The components that nested passes find, each pass over a component found by the one before and under
an assignment that extends the one before. -/
inductive Formula.Nested (f : Formula) : Assignment → Component → Prop
  | root : f.Nested (.empty f.varCount) (Engine.root f)
  | found {a : Assignment} {c : Component} {e : Engine} (entry : Option Slot) {fd : Found} (outer : f.Nested a c)
    (loaded : e.Loaded f) (keeps : e.assignment.Extends a) (mem : fd ∈ (e.passOver { c with entry }).found) :
    f.Nested e.assignment fd.component

/-- No long clause without a true literal has exactly one unassigned literal. -/
def Formula.NoUnit (f : Formula) (a : Assignment) : Prop :=
  ∀ k ∈ f.clauseIds, ¬ f.Satisfied a k → (openLits a (f.lits k)).length ≠ 1

instance (f : Formula) (a : Assignment) : Decidable (f.NoUnit a) :=
  inferInstanceAs (Decidable (∀ k ∈ f.clauseIds, ¬ f.Satisfied a k → (openLits a (f.lits k)).length ≠ 1))

theorem Formula.Nested.arises {f : Formula} {a : Assignment} {c : Component} (h : f.Nested a c) :
    ∃ view, f.Arises c view := by
  induction h with
  | root => exact ⟨_, .root⟩
  | found entry outer loaded keeps mem ih =>
    obtain ⟨view, hc⟩ := ih
    exact ⟨_, .found entry hc loaded mem⟩

/-! ## Closed components -/

/-- With an unassigned variable, a component has what the open clauses link to it, and these clauses. -/
structure Component.Closed (c : Component) (f : Formula) (a : Assignment) : Prop where
  shares : ∀ v ∈ c.vars, a.isActive v = true → ∀ w, f.Shares v w → a.isActive w = true → w ∈ c.vars
  clause_mem : ∀ v ∈ c.vars, a.isActive v = true → ∀ k, f.Mentions k v → ¬ f.Satisfied a k → k ∈ c.clauses
  mentions : ∀ v ∈ c.vars, a.isActive v = true → ∀ k, f.Mentions k v → ¬ f.Satisfied a k →
    ∀ w, f.Mentions k w → a.isActive w = true → w ∈ c.vars

namespace Component.Closed

variable {f : Formula} {a : Assignment} {c d : Component}

theorem root (f : Formula) (a : Assignment) (entry : Option Slot) :
    ({ Engine.root f with entry } : Component).Closed f a where
  shares _ _ _ _ hvw _ := Var.mem_firstN.2 hvw.id_le.2
  clause_mem _ _ _ _ hkv _ := hkv.mem_clauseIds
  mentions _ _ _ _ _ _ _ hkw _ := Var.mem_firstN.2 hkw.id_le

/-- The entry of a component does not matter. -/
theorem setEntry (h : c.Closed f a) (entry : Option Slot) : ({ c with entry } : Component).Closed f a :=
  ⟨h.shares, h.clause_mem, h.mentions⟩

/-- A component stays closed while more variables are assigned. -/
theorem mono (h : c.Closed f a) {a' : Assignment} (hext : a'.Extends a) : c.Closed f a' := by
  have hsat : ∀ {k}, ¬ f.Satisfied a' k → ¬ f.Satisfied a k := fun hn ⟨l, hl, ht⟩ => hn ⟨l, hl, hext.isTrue ht⟩
  constructor
  · intro v hv hva w hvw hwa
    exact h.shares v hv (hext.isActive hva) w hvw (hext.isActive hwa)
  · intro v hv hva k hkv hn
    exact h.clause_mem v hv (hext.isActive hva) k hkv (hsat hn)
  · intro v hv hva k hkv hn w hkw hwa
    exact h.mentions v hv (hext.isActive hva) k hkv (hsat hn) w hkw (hext.isActive hwa)

/-- What a pass finds in a closed component is closed. -/
theorem splits (h : c.Closed f a) {fd : Found} (hs : fd.Splits f a c) : fd.component.Closed f a := by
  -- A link from a variable of what was found does not lead out of it.
  have hin : ∀ {v w}, v ∈ fd.component.vars → (f.linkGraph a c).Adj v w → w ∈ fd.component.vars :=
    fun hv hadj => (hs.mem_iff _ hv _).2 hadj.reachable
  constructor
  · intro v hv hva w hvw hwa
    have hv' := hs.takesPart v hv
    exact hin hv (Formula.linkGraph_of_shares hv' ⟨h.shares v hv'.1 hva w hvw hwa, hwa⟩ hvw)
  · intro v hv hva k hkv hn
    exact hs.clause_mem k (h.clause_mem v (hs.takesPart v hv).1 hva k hkv hn) hn v hv hkv
  · intro v hv hva k hkv hn w hkw hwa
    have hv' := hs.takesPart v hv
    by_cases hvw : v = w
    · exact hvw ▸ hv
    · have hw : c.TakesPart a w := ⟨h.mentions v hv'.1 hva k hkv hn w hkw hwa, hwa⟩
      exact hin hv (Formula.linkGraph_of_mentions hv' hw hvw (h.clause_mem v hv'.1 hva k hkv hn) hn hkv hkw)

/-- Without units in the formula there are none in a closed component. -/
theorem unitFree (h : c.Closed f a) (hno : f.NoUnit a) : f.UnitFree a c := by
  intro k _ hsat v hv hkv
  have hpos : 0 < (openLits a (f.lits k)).length := by
    obtain ⟨l, hl, rfl⟩ := hkv
    exact List.length_pos_of_mem (mem_openLits.2 ⟨hl, hv.2⟩)
  have hne := hno k hkv.mem_clauseIds hsat
  have htwo : 2 ≤ (openLits a (f.lits k)).length := by omega
  obtain ⟨l, hl, hla, hvl⟩ := Formula.exists_open_ne hkv.mem_clauseIds htwo v
  exact ⟨l.var, hvl.symm, ⟨h.mentions v hv.1 hv.2 k hkv hsat l.var ⟨l, hl, rfl⟩ hla, hla⟩, ⟨l, hl, rfl⟩⟩

/-- Every component of nested passes is closed, under all later assignments. -/
theorem nested (hc : f.Nested a c) : c.Closed f a := by
  induction hc with
  | root => exact root f _ none
  | @found a c e entry fd outer loaded keeps mem ih =>
    obtain ⟨view, harises⟩ := outer.arises
    have hfit : ({ c with entry } : Component).Within f := harises.complete.within.of_sublist (.refl _) (.refl _)
    exact ((ih.mono keeps).setEntry entry).splits ((loaded.passOver_decomposes hfit).found fd mem)

end Component.Closed

/-! ## The links within a closed component -/

section

variable {f : Formula} {a : Assignment} {c d : Component}

/-- A component is a part of another one. -/
structure Component.PartOf (c d : Component) : Prop where
  vars : c.vars ⊆ d.vars
  clauses : c.clauses ⊆ d.clauses

theorem Component.PartOf.takesPart (h : c.PartOf d) {v : Var} (hv : c.TakesPart a v) : d.TakesPart a v :=
  ⟨h.vars hv.1, hv.2⟩

/-- Between the variables of a closed part, the links are the same. -/
theorem Component.Closed.adj_iff (h : c.Closed f a) (hp : c.PartOf d) {v w : Var} (hv : v ∈ c.vars) :
    (f.linkGraph a c).Adj v w ↔ (f.linkGraph a d).Adj v w := by
  constructor
  · rintro ⟨hne, hva, hwa, hlink⟩
    refine ⟨hne, hp.takesPart hva, hp.takesPart hwa, hlink.imp_right ?_⟩
    rintro ⟨k, hk, hkvw⟩
    exact ⟨k, hp.clauses hk, hkvw⟩
  · rintro ⟨hne, hva, hwa, hlink⟩
    rcases hlink with hvw | ⟨k, -, hsat, hkv, hkw⟩
    · exact Formula.linkGraph_of_shares ⟨hv, hva.2⟩ ⟨h.shares v hv hva.2 w hvw hwa.2, hwa.2⟩ hvw
    · exact Formula.linkGraph_of_mentions ⟨hv, hva.2⟩ ⟨h.mentions v hv hva.2 k hkv hsat w hkw hwa.2, hwa.2⟩ hne
        (h.clause_mem v hv hva.2 k hkv hsat) hsat hkv hkw

theorem Component.Closed.reachable_iff (h : c.Closed f a) (hp : c.PartOf d) {v w : Var} (hv : v ∈ c.vars) :
    (f.linkGraph a c).Reachable v w ↔ (f.linkGraph a d).Reachable v w := by
  constructor
  · intro hr
    have hstay : w ∈ c.vars ∧ (f.linkGraph a d).Reachable v w := by
      refine Formula.reachable_closed (P := fun u => u ∈ c.vars ∧ (f.linkGraph a d).Reachable v u) ?_ ⟨hv, .refl v⟩ hr
      rintro u u' ⟨hu, hvu⟩ hadj
      exact ⟨hadj.2.2.1.1, hvu.trans ((h.adj_iff hp hu).1 hadj).reachable⟩
    exact hstay.2
  · intro hr
    have hstay : w ∈ c.vars ∧ (f.linkGraph a c).Reachable v w := by
      refine Formula.reachable_closed (P := fun u => u ∈ c.vars ∧ (f.linkGraph a c).Reachable v u) ?_ ⟨hv, .refl v⟩ hr
      rintro u u' ⟨hu, hvu⟩ hadj
      have hadj' := (h.adj_iff hp hu).2 hadj
      exact ⟨hadj'.2.2.1.1, hvu.trans hadj'.reachable⟩
    exact hstay.2

theorem Component.Closed.isolated_iff (h : c.Closed f a) (hp : c.PartOf d) {x : Var} :
    f.Isolated a c x ↔ x ∈ c.vars ∧ f.Isolated a d x := by
  constructor
  · rintro ⟨hx, hnone⟩
    exact ⟨hx.1, hp.takesPart hx, fun w hadj => hnone w ((h.adj_iff hp hx.1).2 hadj)⟩
  · rintro ⟨hx, hactive, hnone⟩
    exact ⟨⟨hx, hactive.2⟩, fun w hadj => hnone w ((h.adj_iff hp hx).1 hadj)⟩

end

/-! ## The components found -/

/-- Variables and clauses in increasing order. -/
structure Component.Ordered (c : Component) (f : Formula) : Prop where
  vars : c.vars.Sublist f.vars
  clauses : c.clauses.Sublist f.clauseIds

theorem Component.Ordered.within {c : Component} {f : Formula} (h : c.Ordered f) : c.Within f :=
  (Engine.within_root f).of_sublist h.vars h.clauses

section

variable {f : Formula} {a : Assignment} {c d : Component} {fd fd' : Found}

theorem Found.Splits.exists_mem (hs : fd.Splits f a c) : ∃ v, v ∈ fd.component.vars :=
  List.exists_mem_of_length_pos (Nat.lt_of_lt_of_le Nat.two_pos hs.two_le)

theorem Found.Splits.touches_iff (hs : fd.Splits f a c) (hc : c.Closed f a) (hp : c.PartOf d) {k : ClauseId} :
    fd.component.Touches f a c k ↔ fd.component.Touches f a d k := by
  constructor
  · rintro ⟨hk, hsat, hv⟩
    exact ⟨hp.clauses hk, hsat, hv⟩
  · rintro ⟨-, hsat, v, hv, hkv⟩
    obtain ⟨hvc, hva⟩ := hs.takesPart v hv
    exact ⟨hc.clause_mem v hvc hva k hkv hsat, hsat, v, hv, hkv⟩

/-- A clause that touches a component of a closed part is whole there if it is whole at all. -/
theorem Found.Splits.whole_iff (hs : fd.Splits f a c) (hc : c.Closed f a) (hp : c.PartOf d) {k : ClauseId}
    (hk : fd.component.Touches f a c k) : f.Whole a c k ↔ f.Whole a d k := by
  constructor
  · exact fun h l hl => hp.takesPart (h l hl)
  · intro h l hl
    obtain ⟨-, hsat, v, hv, hkv⟩ := hk
    obtain ⟨hvc, hva⟩ := hs.takesPart v hv
    exact ⟨hc.mentions v hvc hva k hkv hsat l.var ⟨l, hl, rfl⟩ (h l hl).2, (h l hl).2⟩

/-- A component found in a closed part and one found in the whole are the same if they share a variable. -/
theorem Found.Splits.eq_of_mem (hs : fd.Splits f a c) (hs' : fd'.Splits f a d) (hc : c.Closed f a) (hd : d.Closed f a)
    (hp : c.PartOf d) (hco : c.Ordered f) (hdo : d.Ordered f) (hno : f.NoUnit a) {v : Var}
    (hv : v ∈ fd.component.vars) (hv' : v ∈ fd'.component.vars) :
    fd.component = fd'.component ∧ fd.view = fd'.view := by
  have hvars : fd.component.vars = fd'.component.vars := by
    refine eq_of_sublist_of_perm (firstN_pairwise _) (hs.vars_sublist.trans hco.vars) (hs'.vars_sublist.trans hdo.vars)
      ((List.perm_ext_iff_of_nodup (hs.vars_sublist.nodup hco.within.nodup_vars)
        (hs'.vars_sublist.nodup hdo.within.nodup_vars)).2 fun w => ?_)
    rw [hs.mem_iff v hv, hs'.mem_iff v hv', hc.reachable_iff hp (hs.takesPart v hv).1]
  have htouches : ∀ k, k ∈ fd.component.clauses ↔ fd.component.Touches f a c k :=
    hs.mem_iff_touches (hc.unitFree hno)
  have hclauses : fd.component.clauses = fd'.component.clauses := by
    refine eq_of_sublist_of_perm (firstN_clauses_pairwise _) (hs.clauses_sublist.trans hco.clauses)
      (hs'.clauses_sublist.trans hdo.clauses) ((List.perm_ext_iff_of_nodup
        (hs.clauses_sublist.nodup hco.within.nodup_clauses)
        (hs'.clauses_sublist.nodup hdo.within.nodup_clauses)).2 fun k => ?_)
    rw [htouches, hs'.mem_iff_touches (hd.unitFree hno), hs.touches_iff hc hp]
    simp only [Component.Touches, hvars]
  constructor
  · have hentry := hs.entry_eq.trans hs'.entry_eq.symm
    cases hcomp : fd.component
    cases hcomp' : fd'.component
    simp_all
  · rw [hs.view_eq, hs'.view_eq, ← hvars, ← hclauses]
    congr 1
    refine List.filter_congr fun k hk => decide_eq_decide.2 (not_congr ?_)
    exact hs.whole_iff hc hp ((htouches k).1 hk)

namespace Split.Decomposes

variable {s s' : Split}

theorem nodup_found (hd : s.Decomposes f a c) (hfit : c.Within f) :
    (s.found.map fun fd => (fd.component, fd.view)).Nodup := by
  refine List.pairwise_map.2 ((hd.found_disjoint hfit).imp_of_mem fun {fd fd'} hfd _ hdisj heq => ?_)
  obtain ⟨v, hv⟩ := (hd.found fd hfd).exists_mem
  have hcomp : fd.component = fd'.component := (Prod.mk.inj heq).1
  exact hdisj hv (hcomp ▸ hv)

/-- A variable that takes part and is not isolated is in one of the components. -/
theorem exists_found_of_not_isolated (hd : s.Decomposes f a c) {v : Var} (hv : c.TakesPart a v)
    (hnot : ¬ f.Isolated a c v) : ∃ fd ∈ s.found, v ∈ fd.component.vars := by
  have hmem : v ∈ s.vars := hd.mem_openVars.1 (Component.mem_openVars.2 hv)
  exact (Split.mem_vars.1 hmem).resolve_left fun h => hnot ((hd.mem_isolated v).1 h)

theorem not_isolated_of_found (hd : s.Decomposes f a c) (hfit : c.Within f) {fd : Found} (hfd : fd ∈ s.found) {v : Var}
    (hv : v ∈ fd.component.vars) : ¬ f.Isolated a c v := by
  intro hiso
  have hnd := hd.nodup hfit
  rw [Split.vars, List.nodup_append] at hnd
  exact hnd.2.2 v ((hd.mem_isolated v).2 hiso) v (List.mem_flatMap.2 ⟨fd, hfd, hv⟩) rfl

section

variable (hs : s.Decomposes f a c) (hs' : s'.Decomposes f a d) (hc : c.Closed f a) (hp : c.PartOf d)
  (hco : c.Ordered f) (hdo : d.Ordered f)
include hs hs' hc hp hco hdo

/-- The components found in a closed part are those found in the whole whose variables are in the part. -/
theorem found_perm_filter (hd : d.Closed f a) (hno : f.NoUnit a) :
    (s.found.map fun fd => (fd.component, fd.view)).Perm
      ((s'.found.filter fun fd => ∀ v ∈ fd.component.vars, v ∈ c.vars).map fun fd => (fd.component, fd.view)) := by
  refine (List.perm_ext_iff_of_nodup (hs.nodup_found hco.within) ?_).2 fun x => ?_
  · exact (hs'.nodup_found hdo.within).sublist (List.filter_sublist.map _)
  simp only [List.mem_map, List.mem_filter, decide_eq_true_eq]
  constructor
  · rintro ⟨fd, hfd, rfl⟩
    have hfds := hs.found fd hfd
    obtain ⟨v, hv⟩ := hfds.exists_mem
    have hvc := hfds.takesPart v hv
    have hnot : ¬ f.Isolated a d v := fun h =>
      hs.not_isolated_of_found hco.within hfd hv ((hc.isolated_iff hp).2 ⟨hvc.1, h⟩)
    obtain ⟨fd', hfd', hv'⟩ := hs'.exists_found_of_not_isolated (hp.takesPart hvc) hnot
    obtain ⟨hcomp, hview⟩ := hfds.eq_of_mem (hs'.found fd' hfd') hc hd hp hco hdo hno hv hv'
    refine ⟨fd', ⟨hfd', fun w hw => ?_⟩, by rw [hcomp, hview]⟩
    exact hfds.vars_sublist.subset (hcomp ▸ hw)
  · rintro ⟨fd', ⟨hfd', hin⟩, rfl⟩
    have hfds' := hs'.found fd' hfd'
    obtain ⟨v, hv'⟩ := hfds'.exists_mem
    have hvc : c.TakesPart a v := ⟨hin v hv', (hfds'.takesPart v hv').2⟩
    have hnot : ¬ f.Isolated a c v := fun h =>
      hs'.not_isolated_of_found hdo.within hfd' hv' ((hc.isolated_iff hp).1 h).2
    obtain ⟨fd, hfd, hv⟩ := hs.exists_found_of_not_isolated hvc hnot
    obtain ⟨hcomp, hview⟩ := (hs.found fd hfd).eq_of_mem hfds' hc hd hp hco hdo hno hv hv'
    exact ⟨fd, hfd, by rw [hcomp, hview]⟩

theorem isolated_perm_filter : s.isolated.Perm (s'.isolated.filter fun v => v ∈ c.vars) := by
  have hnd := (List.nodup_append.1 (hs.nodup hco.within)).1
  have hnd' := (List.nodup_append.1 (hs'.nodup hdo.within)).1
  refine (List.perm_ext_iff_of_nodup hnd (hnd'.filter _)).2 fun v => ?_
  rw [hs.mem_isolated, hc.isolated_iff hp, List.mem_filter, hs'.mem_isolated, decide_eq_true_eq, and_comm]

end

end Split.Decomposes

end

namespace Engine

variable {f : Formula}

/-- Incremental decomposition agrees with decomposition from scratch. While caching is off and no long
clause is a unit, a decomposition of a component of nested passes pushes the components that a
decomposition of the root component pushes whose variables are in it, with the same keys, and its
isolated variables are the isolated variables of the root pass that are in it. -/
theorem decompose_restricts {e e₀ : Engine} (he : e.Loaded f) (he₀ : e₀.Loaded f)
    (hsame : e₀.assignment = e.assignment) (hoff : e.cache.caching = false) (hoff₀ : e₀.cache.caching = false)
    {level level₀ : Level} {a : Assignment} {c : Component} {entry entry₀ : Option Slot}
    (hsuper : e.superComponent level = .ok { c with entry })
    (hroot : e₀.superComponent level₀ = .ok { root f with entry := entry₀ }) (hc : f.Nested a c)
    (hext : e.assignment.Extends a) (hno : f.NoUnit e.assignment) :
    let split := e.passOver { c with entry }
    let split₀ := e₀.passOver { root f with entry := entry₀ }
    ∃ e' level' block e₀' level₀' block₀,
      e.decompose level = .ok (e', level') ∧ e'.stack.items = e.stack.items ++ block ∧
      e₀.decompose level₀ = .ok (e₀', level₀') ∧ e₀'.stack.items = e₀.stack.items ++ block₀ ∧
      block.Perm (split.found.map Found.component) ∧ block₀.Perm (split₀.found.map Found.component) ∧
      (split.found.map fun fd => (fd.component, PackedKey.encode e.cache.scheme fd.view)).Perm
        ((split₀.found.filter fun fd => ∀ v ∈ fd.component.vars, v ∈ c.vars).map fun fd =>
          (fd.component, PackedKey.encode e₀.cache.scheme fd.view)) ∧
      split.isolated.Perm (split₀.isolated.filter fun v => v ∈ c.vars) := by
  intro split split₀
  obtain ⟨view, ha⟩ := hc.arises
  have hco : ({ c with entry } : Component).Ordered f := ⟨ha.complete.vars_sublist, ha.complete.clauses_sublist⟩
  have hro : ({ root f with entry := entry₀ } : Component).Ordered f := ⟨.refl _, .refl _⟩
  have hp : ({ c with entry } : Component).PartOf { root f with entry := entry₀ } :=
    ⟨hco.vars.subset, hco.clauses.subset⟩
  have hclosed := ((Component.Closed.nested hc).mono hext).setEntry entry
  have hs : split.Decomposes f e.assignment { c with entry } := he.passOver_decomposes hco.within
  have hs₀ : split₀.Decomposes f e.assignment { root f with entry := entry₀ } :=
    hsame ▸ he₀.passOver_decomposes hro.within
  have hscheme : e₀.cache.scheme = e.cache.scheme := Except.ok.inj (he₀.scheme.symm.trans he.scheme)
  refine ⟨_, _, _, _, _, _, decompose_of_caching_off he hoff hsuper hco.within, rfl,
    decompose_of_caching_off he₀ hoff₀ hroot hro.within, rfl, e.order.perm _, e₀.order.perm _, ?_, ?_⟩
  · have hperm := (hs.found_perm_filter hs₀ hclosed hp hco hro (.root f _ entry₀) hno).map
      fun x => (x.1, PackedKey.encode e.cache.scheme x.2)
    rw [List.map_map, List.map_map] at hperm
    rw [hscheme]
    exact hperm
  · exact hs.isolated_perm_filter hs₀ hclosed hp hco hro

theorem extends_empty (a : Assignment) (n : Nat) : a.Extends (.empty n) := fun v b h => by
  rw [Assignment.varValue_empty] at h
  cases h

/-- The part of the long clauses is found while nothing is assigned. Once variable 4 is true, a pass over
it finds the pair of 3 and 6 and the isolated variable 5, as the root pass does, which has more. -/
theorem decompose_restricts_twoParts :
    ∃ (e : Engine) (c : Component) (block block₀ : List Component), e.Loaded (.ofCnf .twoParts) ∧
      (Formula.ofCnf .twoParts).Nested (.empty 7) c ∧ (Formula.ofCnf .twoParts).NoUnit e.assignment ∧
      (∃ e' level', e.decompose (.new 1 2) = .ok (e', level') ∧ e'.stack.items = e.stack.items ++ block) ∧
      (∃ e' level', e.decompose (.new 0 2) = .ok (e', level') ∧ e'.stack.items = e.stack.items ++ block₀) ∧
      block.length = 1 ∧ block₀.length = 2 ∧ block.Perm (block₀.filter fun d => ∀ v ∈ d.vars, v ∈ c.vars) := by
  let f : Formula := .ofCnf .twoParts
  let scheme : PackingScheme := { varBits := 3, clauseBits := 2, sizeBits := 4 }
  let c : Component :=
    { vars := [⟨3, by decide⟩, ⟨4, by decide⟩, ⟨5, by decide⟩, ⟨6, by decide⟩]
      clauses := [⟨1, by decide⟩, ⟨2, by decide⟩] }
  let a : Assignment := (Assignment.empty 7).set ⟨⟨4, by decide⟩, true⟩
  let e : Engine := { bare f scheme a with cache := .new scheme { caching := false }, stack := ⟨[root f, c]⟩ }
  have hscheme : PackingScheme.ofMax f.varCount f.longs.length = .ok scheme := by decide
  have hbare : (bare f scheme (.empty 7)).Loaded f := loaded_bare (by decide) hscheme
  have hloaded : e.Loaded f := by
    have h : (bare f scheme a).Loaded f := loaded_bare (by decide) hscheme
    exact ⟨h.adjacency, h.assignment, h.pass, h.scheme⟩
  have hfound : ∃ fd ∈ ((bare f scheme (.empty 7)).passOver (root f)).found, fd.component = c := by decide +kernel
  obtain ⟨fd, hmem, hfd⟩ := hfound
  have hnested : f.Nested (.empty 7) c := hfd ▸ .found none .root hbare (extends_empty _ 7) hmem
  have hno : f.NoUnit a := by decide
  have hlengths : (e.passOver c).found.length = 1 ∧ (e.passOver (root f)).found.length = 2 := by decide +kernel
  have hsuper : e.superComponent (.new 1 2) = .ok { c with entry := none } := rfl
  have hroot : e.superComponent (.new 0 2) = .ok { root f with entry := none } := rfl
  obtain ⟨e', level', block, e₀', level₀', block₀, hok, hstack, hok₀, hstack₀, hblock, hblock₀, hperm, -⟩ :=
    decompose_restricts hloaded hloaded rfl rfl rfl hsuper hroot hnested (extends_empty a 7) hno
  refine ⟨e, c, block, block₀, hloaded, hnested, hno, ⟨e', level', hok, hstack⟩, ⟨e₀', level₀', hok₀, hstack₀⟩,
    ?_, ?_, ?_⟩
  · rw [hblock.length_eq, List.length_map]
    exact hlengths.1
  · rw [hblock₀.length_eq, List.length_map]
    exact hlengths.2
  · have hcomponents := hperm.map Prod.fst
    rw [List.map_map, List.map_map] at hcomponents
    refine hblock.trans (hcomponents.trans ?_)
    have hfilter := (hblock₀.filter fun d => ∀ v ∈ d.vars, v ∈ c.vars).symm
    rw [List.filter_map] at hfilter
    exact hfilter

end Engine

end ModelCount
