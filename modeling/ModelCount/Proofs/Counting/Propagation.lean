/-
What propagation does to a set of unassigned variables that no open clause links to other ones. It
assigns variables of the set alone, and only to values that every model of the open clauses gives
them; if it finds a conflict there is no such model. Otherwise no clause is left with a single open
literal, and forgetting the variables on the trail restores the assignment it started from.
-/
import Mathlib.Data.Finset.Card
import Mathlib.Tactic.Push
import ModelCount.Proofs.Counting.Clauses

namespace ModelCount

/-! ## Open clauses -/

/-- No literal of the clause is true. -/
def Pending (a : Assignment) (clause : List Lit) : Prop := ∀ l ∈ clause, a.isTrue l = false

instance (a : Assignment) (clause : List Lit) : Decidable (Pending a clause) :=
  inferInstanceAs (Decidable (∀ l ∈ clause, a.isTrue l = false))

/-- The unassigned literals of a clause. -/
def openLits (a : Assignment) (clause : List Lit) : List Lit := clause.filter fun l => a.isActive l.var

theorem mem_openLits {a : Assignment} {clause : List Lit} {l : Lit} :
    l ∈ openLits a clause ↔ l ∈ clause ∧ a.isActive l.var = true := List.mem_filter

namespace Formula

/-- Every clause without a true literal has at least two unassigned ones. -/
def Settled (f : Formula) (a : Assignment) : Prop := ∀ c ∈ f.clauses, Pending a c → 2 ≤ (openLits a c).length

/-- The clauses without a true literal that have a variable in `V`, restricted to `V`. -/
def pending (f : Formula) (a : Assignment) (V : Finset Var) : List (List Lit) :=
  (f.clauses.filter fun c => Pending a c ∧ ∃ l ∈ c, l.var ∈ V).map fun c => c.filter fun l => l.var ∈ V

theorem mem_pending {f : Formula} {a : Assignment} {V : Finset Var} {clause : List Lit} :
    clause ∈ f.pending a V ↔
      ∃ c ∈ f.clauses, Pending a c ∧ (∃ l ∈ c, l.var ∈ V) ∧ (c.filter fun l => l.var ∈ V) = clause := by
  simp only [pending, List.mem_map, List.mem_filter, decide_eq_true_eq, and_assoc]

theorem over_pending (f : Formula) (a : Assignment) (V : Finset Var) : Over V (f.pending a V) := by
  intro clause hc l hl
  obtain ⟨c, -, -, -, rfl⟩ := mem_pending.1 hc
  simpa using (List.mem_filter.1 hl).2

/-- Unassigned variables that no open clause links to others. -/
structure Block (f : Formula) (a : Assignment) (V : Finset Var) : Prop where
  id_le : ∀ v ∈ V, v.id ≤ a.varCount
  active : ∀ v ∈ V, a.isActive v = true
  closed : ∀ c ∈ f.clauses, Pending a c → ∀ l ∈ c, l.var ∈ V → ∀ m ∈ c, a.isActive m.var = true → m.var ∈ V

end Formula

/-! ## The status of a clause -/

section Status

variable {a : Assignment} {clause : List Lit}

theorem pending_iff : Pending a clause ↔ clause.any a.isTrue = false := by
  simp [Pending]

/-- The order of the literals does not matter. -/
theorem status_perm {d : List Lit} (h : clause.Perm d) : ClauseStatus.of a clause = ClauseStatus.of a d := by
  have hopen := h.filter fun l => a.isActive l.var
  unfold ClauseStatus.of
  rw [h.any_eq]
  split
  · rfl
  generalize (clause.filter fun l => a.isActive l.var) = xs at hopen
  generalize (d.filter fun l => a.isActive l.var) = ys at hopen
  rcases xs with _ | ⟨l, _ | ⟨m, xs⟩⟩
  · rw [List.nil_perm.1 hopen]
  · rw [List.singleton_perm.1 hopen]
  · rcases ys with _ | ⟨l', _ | ⟨m', ys⟩⟩
    · cases hopen.length_eq
    · cases hopen.length_eq
    · rfl

theorem status_conflict (h : ClauseStatus.of a clause = .conflict) : Pending a clause ∧ openLits a clause = [] := by
  unfold ClauseStatus.of at h
  split at h
  · cases h
  · rename_i ht
    split at h
    · exact ⟨pending_iff.2 (by simpa using ht), ‹_›⟩
    · cases h
    · cases h

theorem status_unit {l : Lit} (h : ClauseStatus.of a clause = .unit l) :
    Pending a clause ∧ openLits a clause = [l] := by
  unfold ClauseStatus.of at h
  split at h
  · cases h
  · rename_i ht
    split at h
    · cases h
    · cases h
      exact ⟨pending_iff.2 (by simpa using ht), ‹_›⟩
    · cases h

/-- A clause that is neither in conflict nor unit is satisfied or has two unassigned literals. -/
theorem two_le_of_status (h : ClauseStatus.of a clause ≠ .conflict) (h' : ∀ l, ClauseStatus.of a clause ≠ .unit l)
    (hp : Pending a clause) : 2 ≤ (openLits a clause).length := by
  unfold ClauseStatus.of at h h'
  rw [pending_iff] at hp
  simp only [hp] at h h'
  unfold openLits
  match he : clause.filter fun l => a.isActive l.var with
  | [] => simp [he] at h
  | [l] => simp [he] at h'
  | _ :: _ :: _ => simp [he]

/-- In a tautology without a true literal, some literal and its negation are unassigned. -/
theorem Tautology.two_le (h : Tautology clause) (hp : Pending a clause) : 2 ≤ (openLits a clause).length := by
  obtain ⟨l, hl, hn⟩ := h
  have hactive : a.isActive l.var = true := by
    rw [Assignment.isActive_iff]
    rcases hv : a.varValue l.var with _ | b
    · rfl
    · by_cases hb : b = l.positive
      · exact absurd (Assignment.isTrue_iff.2 (hb ▸ hv)) (by simp [hp l hl])
      · refine absurd (Assignment.isTrue_iff.2 ?_) (by rw [hp l.negate hn]; simp)
        rw [Lit.var_negate, hv, Bool.eq_not_of_ne hb]
        rfl
  have hmem : l ∈ openLits a clause := mem_openLits.2 ⟨hl, hactive⟩
  have hmem' : l.negate ∈ openLits a clause := mem_openLits.2 ⟨hn, hactive⟩
  match he : openLits a clause with
  | [] => simp [he] at hmem
  | [m] =>
    rw [he, List.mem_singleton] at hmem hmem'
    exact (Lit.negate_ne l (hmem'.trans hmem.symm)).elim
  | _ :: _ :: _ => simp

end Status

/-! ## States of propagation -/

/-- The assignment has the values of another one, and maybe more. -/
def Assignment.Extends (a' a : Assignment) : Prop := ∀ v b, a.varValue v = some b → a'.varValue v = some b

theorem Assignment.Extends.isActive {a a' : Assignment} (h : a'.Extends a) {v : Var} (hv : a'.isActive v = true) :
    a.isActive v = true := by
  rw [Assignment.isActive_iff] at hv ⊢
  rcases ha : a.varValue v with _ | b
  · rfl
  · rw [h v b ha] at hv
    cases hv

theorem Assignment.Extends.isTrue {a a' : Assignment} (h : a'.Extends a) {l : Lit} (hl : a.isTrue l = true) :
    a'.isTrue l = true := by
  rw [Assignment.isTrue_iff] at hl ⊢
  exact h _ _ hl

/-- What propagation reached from `a` by assigning variables of `V`. -/
structure Propagation.Reached (a : Assignment) (V : Finset Var) (s : Propagation) : Prop where
  varCount : s.assignment.varCount = a.varCount
  outside : ∀ v, v ∉ V → s.assignment.varValue v = a.varValue v
  trail : ∀ v, v ∈ s.trail ↔ v ∈ V ∧ s.assignment.isActive v = false
  nodup : s.trail.Nodup

/-- What propagation does between two states: values are kept, a model that agrees with the first
state agrees with the second, and there is none if the second is in conflict. -/
structure Propagation.Follows (f : Formula) (a : Assignment) (V : Finset Var) (s s' : Propagation) : Prop where
  reached : s'.Reached a V
  keeps : s'.assignment.Extends s.assignment
  agrees : ∀ T ∈ models V (f.pending a V), Agrees s.assignment V T → Agrees s'.assignment V T ∧ s'.consistent = true
  length_le : s.trail.length ≤ s'.trail.length

namespace Propagation

variable {f : Formula} {a : Assignment} {V : Finset Var} {s s' s'' : Propagation}

theorem Follows.refl (hr : s.Reached a V) (hc : s.consistent = true) : Follows f a V s s :=
  ⟨hr, fun _ _ h => h, fun _ _ h => ⟨h, hc⟩, le_rfl⟩

theorem Follows.trans (h : Follows f a V s s') (h' : Follows f a V s' s'') : Follows f a V s s'' :=
  ⟨h'.reached, fun v b hv => h'.keeps v b (h.keeps v b hv), fun T hT hag => h'.agrees T hT (h.agrees T hT hag).1,
    h.length_le.trans h'.length_le⟩

theorem Reached.length_le (h : s.Reached a V) : s.trail.length ≤ V.card := by
  rw [← List.toFinset_card_of_nodup h.nodup]
  exact Finset.card_le_card fun v hv => ((h.trail v).1 (List.mem_toFinset.1 hv)).1

/-- What is pending now was pending at the start. -/
theorem Reached.pending (hb : f.Block a V) (h : s.Reached a V) {c : List Lit} (hp : Pending s.assignment c) :
    Pending a c := by
  intro l hl
  by_contra ht
  rw [Bool.not_eq_false, Assignment.isTrue_iff] at ht
  have hnot : l.var ∉ V := fun hv => by
    have := hb.active _ hv
    rw [Assignment.isActive_iff, ht] at this
    cases this
  have htrue : s.assignment.isTrue l = true := Assignment.isTrue_iff.2 ((h.outside _ hnot).trans ht)
  rw [hp l hl] at htrue
  cases htrue

/-- Propagation keeps the values it started from. -/
theorem Reached.extends (hb : f.Block a V) (h : s.Reached a V) : s.assignment.Extends a := by
  intro v b hv
  by_cases hV : v ∈ V
  · rw [Assignment.isActive_iff.1 (hb.active v hV)] at hv
    cases hv
  · rw [h.outside v hV, hv]

theorem Reached.isActive (h : s.Reached a V) {v : Var} (hv : v ∉ V) :
    s.assignment.isActive v = a.isActive v := by
  simp only [Assignment.isActive, h.outside v hv]

/-- What was settled at the start, apart from the clauses with variables in `V`. -/
def SettledOutside (f : Formula) (a : Assignment) (V : Finset Var) : Prop :=
  ∀ c ∈ f.clauses, Pending a c → (∀ l ∈ c, l.var ∉ V) → 2 ≤ (openLits a c).length

/-- A clause with at most one unassigned literal has variables in `V`, and in every model that agrees
this literal holds. -/
theorem Reached.forced (hb : f.Block a V) (hout : SettledOutside f a V) (hr : s.Reached a V) {c : List Lit}
    (hc : c ∈ f.clauses) (hp : Pending s.assignment c) (hlen : (openLits s.assignment c).length < 2) :
    (∀ l ∈ openLits s.assignment c, l.var ∈ V) ∧
    ∀ T ∈ models V (f.pending a V), Agrees s.assignment V T →
      ∃ l ∈ openLits s.assignment c, l.holds (decide (l.var ∈ T)) = true := by
  have hpa := hr.pending hb hp
  have htouch : ∃ l ∈ c, l.var ∈ V := by
    by_contra hn
    push Not at hn
    have h2 := hout c hc hpa hn
    have heq : openLits s.assignment c = openLits a c :=
      List.filter_congr fun l hl => by rw [hr.isActive (hn l hl)]
    rw [heq] at hlen
    omega
  obtain ⟨l, hl, hlV⟩ := htouch
  refine ⟨fun m hm => ?_, fun T hT hag => ?_⟩
  · obtain ⟨hm, hactive⟩ := mem_openLits.1 hm
    by_contra hn
    exact hn (hb.closed c hc hpa l hl hlV m hm (hr.isActive hn ▸ hactive))
  · obtain ⟨-, hsat⟩ := mem_models.1 hT
    obtain ⟨m, hm, hholds⟩ := hsat _ (Formula.mem_pending.2 ⟨c, hc, hpa, ⟨l, hl, hlV⟩, rfl⟩)
    obtain ⟨hm, hmV⟩ := List.mem_filter.1 hm
    exact ⟨m, mem_openLits.2 ⟨hm, hag.isActive_of_holds (by simpa using hmV) hholds (hp m hm)⟩, hholds⟩

/-- Before anything is assigned. -/
theorem reached_start (hb : f.Block a V) : Reached a V { assignment := a, trail := [] } := by
  refine ⟨rfl, fun _ _ => rfl, fun v => iff_of_false List.not_mem_nil fun h => ?_, List.nodup_nil⟩
  rw [hb.active v h.1] at h
  cases h.2

/-- Assigning one more variable of `V`. -/
theorem Reached.assign (hb : f.Block a V) (hr : s.Reached a V) {l : Lit} (hl : l.var ∈ V)
    (hactive : s.assignment.varValue l.var = none) :
    Reached a V { s with assignment := s.assignment.set l, trail := l.var :: s.trail } := by
  have hset := Assignment.varValue_set_of_le (a := s.assignment) (hr.varCount ▸ hb.id_le _ hl)
  refine ⟨(Assignment.varCount_set ..).trans hr.varCount, fun v hv => ?_, fun v => ?_, ?_⟩
  · rw [hset, if_neg]
    · exact hr.outside v hv
    · rintro rfl
      exact hv hl
  · simp only [List.mem_cons, hr.trail, Assignment.isActive, hset]
    by_cases h : v = l.var
    · subst h; simp [hl]
    · simp [h]
  · refine List.nodup_cons.2 ⟨fun hmem => ?_, hr.nodup⟩
    have := ((hr.trail l.var).1 hmem).2
    rw [Assignment.isActive, hactive] at this
    cases this

/-- Assigning the unassigned literal of a unit clause. -/
theorem Reached.unit (hb : f.Block a V) (hout : SettledOutside f a V) (hr : s.Reached a V)
    (hcons : s.consistent = true) {c : List Lit} (hc : c ∈ f.clauses) {l : Lit}
    (hstatus : ClauseStatus.of s.assignment c = .unit l) :
    Follows f a V s { s with assignment := s.assignment.set l, trail := l.var :: s.trail } := by
  obtain ⟨hp, hopen⟩ := status_unit hstatus
  have hl : l ∈ openLits s.assignment c := by simp [hopen]
  have hactive := Assignment.isActive_iff.1 (mem_openLits.1 hl).2
  obtain ⟨hV, hforced⟩ := hr.forced hb hout hc hp (by simp [hopen])
  have hset := Assignment.varValue_set_of_le (a := s.assignment) (hr.varCount ▸ hb.id_le _ (hV l hl))
  refine ⟨hr.assign hb (hV l hl) hactive, fun v b hv => ?_, fun T hT hag => ⟨fun v hv b hb => ?_, hcons⟩, by simp⟩
  · rw [hset]
    split
    · rename_i h
      rw [h, hactive] at hv
      cases hv
    · exact hv
  · rw [hset] at hb
    split at hb
    · rename_i h
      cases hb
      obtain ⟨m, hm, hholds⟩ := hforced T hT hag
      rw [hopen, List.mem_singleton] at hm
      subst hm
      rw [h]
      exact Lit.holds_iff.1 hholds
    · exact hag v hv b hb

/-! ## Rounds -/

theorem round_follows (hb : f.Block a V) (hout : SettledOutside f a V) {cs : List (List Lit)} (hcs : f.ListedIn cs) :
    ∀ (cls : List (List Lit)), (∀ c ∈ cls, c ∈ cs) → ∀ {s : Propagation}, s.Reached a V → s.consistent = true →
      Follows f a V s (s.round cls)
  | [], _, _, hr, hcons => .refl hr hcons
  | c :: cls, hsub, s, hr, hcons => by
    rw [List.forall_mem_cons] at hsub
    -- A tautology that is not satisfied has two unassigned literals, so it is neither a unit nor a conflict.
    have hmem : Pending s.assignment c → (openLits s.assignment c).length < 2 →
        ∃ d ∈ f.clauses, ClauseStatus.of s.assignment c = ClauseStatus.of s.assignment d := fun hp hlen => by
      obtain ⟨d, hd, hperm⟩ := (hcs.cases c hsub.1).resolve_left fun ht => by have := ht.two_le hp; omega
      exact ⟨d, hd, status_perm hperm⟩
    rw [round]
    split
    · rename_i hstatus
      obtain ⟨hp, hopen⟩ := status_conflict hstatus
      obtain ⟨d, hd, heq⟩ := hmem hp (by simp [hopen])
      obtain ⟨hp, hopen⟩ := status_conflict (heq ▸ hstatus)
      refine ⟨⟨hr.varCount, hr.outside, hr.trail, hr.nodup⟩, fun _ _ h => h, fun T hT hag => ?_, le_rfl⟩
      obtain ⟨l, hl, -⟩ := (hr.forced hb hout hd hp (by simp [hopen])).2 T hT hag
      simp [hopen] at hl
    · rename_i l hstatus
      obtain ⟨hp, hopen⟩ := status_unit hstatus
      obtain ⟨d, hd, heq⟩ := hmem hp (by simp [hopen])
      have hunit := hr.unit hb hout hcons hd (heq ▸ hstatus)
      exact hunit.trans (round_follows hb hout hcs cls hsub.2 hunit.reached hcons)
    · exact round_follows hb hout hcs cls hsub.2 hr hcons

theorem length_le_round : ∀ (cls : List (List Lit)) (s : Propagation), s.trail.length ≤ (s.round cls).trail.length
  | [], _ => le_rfl
  | c :: cls, s => by
    rw [round]
    split
    · exact le_rfl
    · rename_i l _
      have := length_le_round cls { s with assignment := s.assignment.set l, trail := l.var :: s.trail }
      simp only [List.length_cons] at this
      omega
    · exact length_le_round cls s

/-- A round that assigns nothing found no unit clause and no conflict. -/
theorem round_fixed : ∀ (cls : List (List Lit)) (s : Propagation), (s.round cls).consistent = true →
    (s.round cls).trail.length = s.trail.length →
    s.round cls = s ∧ ∀ c ∈ cls, Pending s.assignment c → 2 ≤ (openLits s.assignment c).length
  | [], _, _, _ => ⟨rfl, by simp⟩
  | c :: cls, s, hcons, hlen => by
    rw [round] at hcons hlen ⊢
    split at hcons
    · cases hcons
    · rename_i l hstatus
      simp only [hstatus] at hlen
      have := length_le_round cls { s with assignment := s.assignment.set l, trail := l.var :: s.trail }
      rw [hlen, List.length_cons] at this
      omega
    · rename_i hconflict hunit
      split at hlen
      · exact absurd ‹_› hconflict
      · exact absurd ‹_› (hunit _)
      obtain ⟨heq, hall⟩ := round_fixed cls s hcons hlen
      exact ⟨heq, List.forall_mem_cons.2 ⟨two_le_of_status hconflict hunit, hall⟩⟩

/-- Rounds go on until the clauses are settled or in conflict. -/
theorem rounds_follows (hb : f.Block a V) (hout : SettledOutside f a V) {cs : List (List Lit)} (hcs : f.ListedIn cs) :
    ∀ (fuel : Nat) {s : Propagation}, s.Reached a V → s.consistent = true → V.card < fuel + s.trail.length →
      Follows f a V s (rounds cs fuel s) ∧
        ((rounds cs fuel s).consistent = true → f.Settled (rounds cs fuel s).assignment)
  | 0, s, hr, _, hfuel => by have := hr.length_le; omega
  | fuel + 1, s, hr, hcons, hfuel => by
    have hround := round_follows hb hout hcs cs (fun _ h => h) hr hcons
    rw [rounds]
    split
    · rename_i hmore
      simp only [Bool.and_eq_true, bne_iff_ne] at hmore
      have hlt := hround.length_le
      obtain ⟨hfollows, hsettled⟩ := rounds_follows hb hout hcs fuel hround.reached hmore.1 (by omega)
      exact ⟨hround.trans hfollows, hsettled⟩
    · rename_i hdone
      refine ⟨hround, fun hcons' => ?_⟩
      have hlen : (s.round cs).trail.length = s.trail.length := by simpa [hcons'] using hdone
      obtain ⟨heq, hall⟩ := round_fixed cs s hcons' hlen
      rw [heq]
      intro c hc hp
      obtain ⟨d, hd, hperm⟩ := hcs.listed c hc
      have hopen := hall d hd fun l hl => hp l (hperm.mem_iff.1 hl)
      rwa [openLits, (hperm.filter _).length_eq] at hopen

/-! ## What is left after propagation -/

/-- What is left of the open clauses under a settled assignment are its own open clauses. -/
theorem Reached.mem_reduct_pending (hb : f.Block a V) (hr : s.Reached a V) (hsettled : f.Settled s.assignment)
    (clause : List Lit) :
    clause ∈ reduct s.assignment (f.pending a V) ↔
      clause ∈ f.pending s.assignment (V.filter fun v => s.assignment.isActive v = true) := by
  -- Within an open clause, the unassigned literals are those with a variable that is left of `V`.
  have hfilter : ∀ c ∈ f.clauses, Pending a c → ∀ l ∈ c, l.var ∈ V →
      ((c.filter fun l => l.var ∈ V).filter fun l => s.assignment.isActive l.var) =
        c.filter fun l => l.var ∈ V.filter fun v => s.assignment.isActive v = true := fun c _ _ _ _ _ => by
    rw [List.filter_filter]
    exact List.filter_congr fun m _ => by simp [Finset.mem_filter, Bool.and_comm]
  rw [mem_reduct, Formula.mem_pending]
  constructor
  · rintro ⟨d, hd, hnot, rfl⟩
    obtain ⟨c, hc, hpa, ⟨l, hl, hlV⟩, rfl⟩ := Formula.mem_pending.1 hd
    have hp : Pending s.assignment c := fun m hm => by
      by_cases hmV : m.var ∈ V
      · exact hnot m (List.mem_filter.2 ⟨hm, by simpa using hmV⟩)
      · have := hpa m hm
        simp only [Assignment.isTrue, hr.outside _ hmV] at this ⊢
        exact this
    refine ⟨c, hc, hp, ?_, (hfilter c hc hpa l hl hlV).symm⟩
    obtain ⟨m, hm⟩ := List.exists_mem_of_length_pos (show 0 < (openLits s.assignment c).length by
      have := hsettled c hc hp; omega)
    obtain ⟨hm, hactive⟩ := mem_openLits.1 hm
    by_cases hmV : m.var ∈ V
    · exact ⟨m, hm, Finset.mem_filter.2 ⟨hmV, hactive⟩⟩
    · exact (hmV (hb.closed c hc hpa l hl hlV m hm (hr.isActive hmV ▸ hactive))).elim
  · rintro ⟨c, hc, hp, ⟨l, hl, hlV⟩, rfl⟩
    have hpa := hr.pending hb hp
    have hlV' := (Finset.mem_filter.1 hlV).1
    exact ⟨_, Formula.mem_pending.2 ⟨c, hc, hpa, ⟨l, hl, hlV'⟩, rfl⟩,
      fun m hm => hp m (List.mem_of_mem_filter hm), hfilter c hc hpa l hl hlV'⟩

/-- Propagation finds a conflict if no model agrees with where it started; otherwise these models are as
many as the open clauses have that it leaves. -/
theorem propagate_spec (hb : f.Block a V) (hout : SettledOutside f a V) {cs : List (List Lit)} (hcs : f.ListedIn cs)
    {start : Assignment} {trail : List Var} (hr : Reached a V { assignment := start, trail }) :
    (start.propagate cs trail).Reached a V ∧ (start.propagate cs trail).assignment.Extends start ∧
    ((start.propagate cs trail).consistent = false →
      ((models V (f.pending a V)).filter fun T => Agrees start V T).card = 0) ∧
    ((start.propagate cs trail).consistent = true → f.Settled (start.propagate cs trail).assignment ∧
      ((models V (f.pending a V)).filter fun T => Agrees start V T).card =
        (models (V.filter fun v => (start.propagate cs trail).assignment.isActive v = true)
          (f.pending (start.propagate cs trail).assignment
            (V.filter fun v => (start.propagate cs trail).assignment.isActive v = true))).card) := by
  have hcard : V.card < start.varCount + 1 + trail.length := by
    have hsub : V ⊆ (Var.firstN start.varCount).toFinset := fun v hv =>
      List.mem_toFinset.2 (Var.mem_firstN.2 (hr.varCount ▸ hb.id_le v hv))
    have := (Finset.card_le_card hsub).trans (List.toFinset_card_le _)
    rw [Var.length_firstN] at this
    omega
  obtain ⟨hfollows, hsettled⟩ := rounds_follows hb hout hcs _ hr rfl hcard
  rw [show rounds cs (start.varCount + 1) { assignment := start, trail } = start.propagate cs trail from rfl]
    at hfollows hsettled
  generalize start.propagate cs trail = p at hfollows hsettled ⊢
  refine ⟨hfollows.reached, hfollows.keeps, fun hcons => ?_, fun hcons => ⟨hsettled hcons, ?_⟩⟩
  · rw [Finset.card_eq_zero, Finset.filter_eq_empty_iff]
    intro T hT hag
    have htrue := (hfollows.agrees T hT hag).2
    rw [htrue] at hcons
    cases hcons
  · rw [models_congr _ fun clause => (hfollows.reached.mem_reduct_pending hb (hsettled hcons) clause).symm,
      ← card_filter_agrees (f.over_pending a V)]
    refine congrArg Finset.card (Finset.filter_congr fun T hT => ⟨fun hag => (hfollows.agrees T hT hag).1, fun hag => ?_⟩)
    exact fun v hv b hb => hag v hv b (hfollows.keeps v b hb)

end Propagation

/-! ## The start -/

namespace Formula

variable {f : Formula}

/-- Before anything is assigned, the whole formula is open. -/
theorem block_firstN (f : Formula) : f.Block (.empty f.varCount) (Var.firstN f.varCount).toFinset where
  id_le v hv := by
    rw [Assignment.varCount_empty]
    exact Var.mem_firstN.1 (List.mem_toFinset.1 hv)
  active v _ := Assignment.isActive_iff.2 (Assignment.varValue_empty ..)
  closed c hc _ _ _ _ m hm _ := List.mem_toFinset.2 (Var.mem_firstN.2 (var_le_of_mem_clauses hc hm))

theorem settledOutside_firstN (f : Formula) (a : Assignment) :
    Propagation.SettledOutside f a (Var.firstN f.varCount).toFinset := by
  intro c hc _ hout
  obtain ⟨l, hl⟩ := List.exists_mem_of_ne_nil c (ne_nil_of_mem_clauses hc)
  exact (hout l hl (List.mem_toFinset.2 (Var.mem_firstN.2 (var_le_of_mem_clauses hc hl)))).elim

theorem mem_pending_firstN (clause : List Lit) :
    clause ∈ f.pending (.empty f.varCount) (Var.firstN f.varCount).toFinset ↔ clause ∈ f.clauses := by
  have hall : ∀ c ∈ f.clauses, (c.filter fun l => l.var ∈ (Var.firstN f.varCount).toFinset) = c := fun c hc =>
    List.filter_eq_self.2 fun l hl => by simpa using Var.mem_firstN.2 (var_le_of_mem_clauses hc hl)
  rw [mem_pending]
  constructor
  · rintro ⟨c, hc, -, -, rfl⟩
    rwa [hall c hc]
  · intro hc
    obtain ⟨l, hl⟩ := List.exists_mem_of_ne_nil clause (ne_nil_of_mem_clauses hc)
    refine ⟨clause, hc, fun m _ => ?_, ⟨l, hl, ?_⟩, hall clause hc⟩
    · simp [Assignment.isTrue, Assignment.varValue_empty]
    · exact List.mem_toFinset.2 (Var.mem_firstN.2 (var_le_of_mem_clauses hc hl))

end Formula

/-- A truth assignment agrees with a first literal if the literal holds in it. -/
theorem Formula.Block.agrees_set {f : Formula} {a : Assignment} {V T : Finset Var} (hb : f.Block a V) {l : Lit}
    (hl : l.var ∈ V) : Agrees (a.set l) V T ↔ l.holds (decide (l.var ∈ T)) = true := by
  have hset := Assignment.varValue_set_of_le (hb.id_le _ hl)
  rw [Lit.holds_iff]
  refine ⟨fun h => h l.var hl _ (by simp [hset]), fun h v hv b hvb => ?_⟩
  rw [hset, Assignment.isActive_iff.1 (hb.active v hv)] at hvb
  split at hvb
  · rename_i hv
    rw [hv, h]
    exact Option.some.inj hvb
  · cases hvb

/-! ## Going back -/

namespace Assignment

theorem ext_varValue {a a' : Assignment} (hcount : a.varCount = a'.varCount) (h : ∀ v, a.varValue v = a'.varValue v) :
    a = a' := by
  have hvalues : a.values = a'.values := Table.ext_get hcount fun i _ => h ⟨i + 1, i.succ_pos⟩
  cases a
  cases a'
  exact congrArg _ hvalues

theorem clearAll_reads : ∀ (vs : List Var) (a : Assignment),
    (a.clearAll vs).varCount = a.varCount ∧
    ∀ v, (a.clearAll vs).varValue v = if v ∈ vs then none else a.varValue v
  | [], a => ⟨rfl, fun v => by simp [clearAll]⟩
  | w :: vs, a => by
    obtain ⟨hcount, hvalue⟩ := clearAll_reads vs (a.clear w)
    refine ⟨hcount.trans (varCount_clear ..), fun v => (hvalue v).trans ?_⟩
    by_cases hv : v ∈ vs
    · simp [hv]
    · rw [if_neg hv, varValue_clear]
      by_cases hw : w = v
      · subst hw
        by_cases hlt : w.index < a.varCount
        · simp [hlt]
        · have hnone : a.varValue w = none := a.values.get_of_size_le (Nat.le_of_not_lt hlt)
          simp [hlt, hnone]
      · simp [hw, hv, Ne.symm hw]

end Assignment

/-- Forgetting what propagation assigned restores the assignment. -/
theorem Propagation.Reached.clearAll_eq {f : Formula} {a : Assignment} {V : Finset Var} {s : Propagation}
    (hb : f.Block a V) (hr : s.Reached a V) : s.assignment.clearAll s.trail = a := by
  obtain ⟨hcount, hvalue⟩ := Assignment.clearAll_reads s.trail s.assignment
  refine Assignment.ext_varValue (hcount.trans hr.varCount) fun v => ?_
  rw [hvalue]
  by_cases hv : v ∈ V
  · have hnone := Assignment.isActive_iff.1 (hb.active v hv)
    rw [hnone]
    split
    · rfl
    · rename_i hmem
      rw [hr.trail, not_and, Bool.not_eq_false] at hmem
      exact Assignment.isActive_iff.1 (hmem hv)
  · rw [if_neg fun h => hv ((hr.trail v).1 h).1]
    exact hr.outside v hv

end ModelCount
