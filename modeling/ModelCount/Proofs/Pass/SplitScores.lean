/-
The scores that a whole pass leaves. A pass sets the score of every variable that takes part to zero before
its first search, and no search changes the score of a variable that an earlier one reached, so each
variable keeps what its own search gave it.
-/
import ModelCount.Proofs.Pass.Scores

namespace ModelCount

namespace Pass

variable {f : Formula} {a : Assignment} {super : Component}

/-- The scores of unseen variables start anew. -/
def Fresh (p : Pass) : Prop := ∀ v, p.varMark v = .unseen → p.score v = 0

theorem enterVars_score (a : Assignment) (vs : List Var) (p : Pass) (v : Var) :
    (vs.foldl (enterVar a) p).score v =
      if v ∈ vs ∧ a.isActive v = true ∧ v.index < p.scores.size then 0 else p.score v := by
  induction vs generalizing p with
  | nil => simp
  | cons w vs ih =>
    have hsize : (enterVar a p w).scores.size = p.scores.size := by
      unfold enterVar
      split
      · exact Table.size_set ..
      · rfl
    have hentered : (enterVar a p w).score v =
        if w = v ∧ a.isActive v = true ∧ v.index < p.scores.size then 0 else p.score v := by
      unfold enterVar
      by_cases hw : a.isActive w = true
      · rw [if_pos hw]
        simp only [score, setScore, Table.get_set, Var.index_inj]
        by_cases h : w = v
        · subst h; simp [hw, markVar]
        · simp [h, markVar]
      · rw [if_neg hw, if_neg]
        rintro ⟨rfl, h, -⟩
        exact hw h
    rw [List.foldl_cons, ih, hsize, hentered]
    by_cases h : w = v
    · subst h
      split
      · rename_i hw; simp [hw.2]
      · simp
    · simp [h, Ne.symm h]

/-- A pass begins with fresh scores, and leaves those of the variables that take no part. -/
theorem begin_scores (hfit : super.Within f) {p : Pass} (hp : p.Fits f) :
    Fresh (p.begin a super) ∧ ∀ v, ¬ super.TakesPart a v → (p.begin a super).score v = p.score v := by
  obtain ⟨-, hvars, -⟩ := begin_reads (a := a) hfit hp
  have hread : ∀ v, (p.begin a super).score v =
      if v ∈ super.vars ∧ a.isActive v = true ∧ v.index < p.scores.size then 0 else p.score v := fun v => by
    obtain ⟨-, -, -, hscores⟩ := enterClauses_reads super.clauses (super.vars.foldl (enterVar a) { p with
      vars := .replicate p.vars.size .outside
      clauses := .replicate p.clauses.size .outside })
    exact (congrArg (·.get v.index) hscores).trans (enterVars_score a super.vars _ v)
  refine ⟨fun v hv => ?_, fun v hv => ?_⟩
  · rw [hvars] at hv
    split at hv
    · rename_i htv
      rw [hread, hp.scores, if_pos ⟨htv.1, htv.2, Var.index_lt_iff.2 (hfit.var_id_le v htv.1)⟩]
    · cases hv
  · rw [hread, if_neg]
    rintro ⟨hmem, hactive, -⟩
    exact hv ⟨hmem, hactive⟩

end Pass

/-- The worklists of the searches of a pass. -/
def Split.worklists (s : Split) : List (List Var) := s.isolated.map (fun v => [v]) ++ s.found.map Found.reached

theorem Split.mem_worklists {s : Split} {worklist : List Var} :
    worklist ∈ s.worklists ↔ (∃ v ∈ s.isolated, [v] = worklist) ∨ ∃ fd ∈ s.found, fd.reached = worklist := by
  simp [worklists]

/-- Every variable that takes part is in the worklist of one search. -/
theorem Split.Decomposes.worklists_perm {f : Formula} {a : Assignment} {super : Component} {s : Split}
    (h : s.Decomposes f a super) : s.worklists.flatten.Perm (super.vars.filter a.isActive) := by
  have hisolated : (s.isolated.map fun v => [v]).flatten = s.isolated := by
    rw [← List.flatMap_def, List.flatMap_singleton']
  have hfound : (s.found.map Found.reached).flatten.Perm (s.found.flatMap fun fd => fd.component.vars) := by
    rw [← List.flatMap_def]
    exact List.Perm.flatMap_left _ fun fd hfd => (h.found fd hfd).reached_perm
  rw [worklists, List.flatten_append, hisolated]
  exact (hfound.append_left _).trans h.vars_perm

namespace Pass

variable {f : Formula} {a : Assignment} {super : Component}

/-- A search from `p` reached the worklist, and its variables were placed. -/
structure Placed (f : Formula) (a : Assignment) (super : Component) (p : Pass) (worklist : List Var) (q : Pass) :
    Prop where
  fresh : Fresh q
  reached : ∀ u ∈ worklist, q.varMark u ≠ .unseen ∧ q.score u = f.expectedScore a super worklist u
  kept : ∀ u, p.varMark u ≠ .unseen → q.varMark u ≠ .unseen ∧ q.score u = p.score u

section

variable {p q : Pass} {v : Var} {worklist : List Var}

theorem Fresh.placed (hp : Fresh p)
    (hscore : ∀ u, q.score u = p.score u + if u ∈ worklist then f.expectedScore a super worklist u else 0)
    (hmark : ∀ u, q.varMark u = if u ∈ worklist then .placed else p.varMark u)
    (hunseen : ∀ u ∈ worklist, p.varMark u = .unseen) : Placed f a super p worklist q := by
  refine ⟨fun u hu => ?_, fun u hu => ⟨?_, ?_⟩, fun u hu => ?_⟩
  · rw [hmark] at hu
    split at hu
    · cases hu
    · rename_i hnot
      rw [hscore, if_neg hnot, hp u hu]
  · rw [hmark, if_pos hu]
    simp
  · rw [hscore, if_pos hu, hp u (hunseen u hu), Nat.zero_add]
  · -- A search reaches unseen variables only, so what an earlier one placed is not in the worklist.
    have hnot : u ∉ worklist := fun h => hu (hunseen u h)
    rw [hmark, hscore, if_neg hnot, if_neg hnot]
    exact ⟨hu, rfl⟩

theorem takeComponent_scores (hvars : super.vars.Nodup) (hclauses : super.clauses.Nodup) (p : Pass) :
    (p.takeComponent super).2.2.scores = p.scores := by
  obtain ⟨-, -, -, -, hv⟩ := placeVars_reads super.vars p hvars
  obtain ⟨-, -, -, -, -, hc⟩ := placeClauses_reads super.clauses (p.placeVars super.vars).2 hclauses
  exact hc.trans hv

/-- The state after a search from an isolated variable. -/
theorem Between.next_isolated (hb : Between f a super p) (hfit : super.Within f) (hfresh : Fresh p)
    (hv : p.varMark v = .unseen) (hsize : (p.search (.ofFormula f) a v).worklist.size = 1) :
    Between f a super ((p.search (.ofFormula f) a v).markVar v .placed) ∧
      Placed f a super p [v] ((p.search (.ofFormula f) a v).markVar v .placed) := by
  have hs := hb.toReady.search hfit hv
  have hscore := hb.toReady.search_score hfit hv
  obtain ⟨hb', hq⟩ := hs.between_isolated hb ((hs.isolated_iff hb.toReady).1 hsize)
  have hlist : (p.search (.ofFormula f) a v).worklist.toList = [v] := by
    obtain ⟨x, hx⟩ := List.length_eq_one_iff.1 (Array.length_toList.trans hsize)
    have hmem := hs.seed_mem
    rw [hx, List.mem_singleton] at hmem
    rw [hx, hmem]
  rw [hlist] at hscore
  exact ⟨hb', hfresh.placed hscore (fun u => by simpa using hq u) (by simpa using hv)⟩

/-- The state after a search from a variable that is not isolated. -/
theorem Between.next_found (hb : Between f a super p) (hfit : super.Within f) (hfresh : Fresh p)
    (hv : p.varMark v = .unseen) (hsize : (p.search (.ofFormula f) a v).worklist.size ≠ 1) :
    Between f a super ((p.search (.ofFormula f) a v).takeComponent super).2.2 ∧
      Placed f a super p (p.search (.ofFormula f) a v).worklist.toList
        ((p.search (.ofFormula f) a v).takeComponent super).2.2 := by
  have hs := hb.toReady.search hfit hv
  have hscore := hb.toReady.search_score hfit hv
  obtain ⟨-, -, hb', hq⟩ := hs.takeComponent hfit hb (mt (hs.isolated_iff hb.toReady).2 hsize) rfl
  have hscores := takeComponent_scores hfit.nodup_vars hfit.nodup_clauses (p.search (.ofFormula f) a v)
  exact ⟨hb', hfresh.placed (fun u => (congrArg (·.get u.index) hscores).trans (hscore u)) hq hs.unseen⟩

/-- What a search expects of its variables lasts, because later searches leave them alone. -/
theorem Placed.cons {s s' : Split} (h : Placed f a super p worklist q)
    (hrest : (∀ w ∈ s.worklists, ∀ v ∈ w, s.pass.score v = f.expectedScore a super w v) ∧
      ∀ v, q.varMark v ≠ .unseen → s.pass.score v = q.score v)
    (hpass : s'.pass = s.pass) (hmem : ∀ w ∈ s'.worklists, w = worklist ∨ w ∈ s.worklists) :
    (∀ w ∈ s'.worklists, ∀ v ∈ w, s'.pass.score v = f.expectedScore a super w v) ∧
      ∀ v, p.varMark v ≠ .unseen → s'.pass.score v = p.score v := by
  rw [hpass]
  refine ⟨fun w hw v hv => ?_, fun v hv => (hrest.2 v (h.kept v hv).1).trans (h.kept v hv).2⟩
  rcases hmem w hw with rfl | hw
  · exact (hrest.2 v (h.reached v hv).1).trans (h.reached v hv).2
  · exact hrest.1 w hw v hv

end

/-- The searches still to come give their variables what is expected, and leave the others as they are. -/
theorem Between.splitFrom_scores (hfit : super.Within f) : ∀ (vs : List Var) {p : Pass}, Between f a super p →
    Fresh p →
    (∀ worklist ∈ (p.splitFrom (.ofFormula f) a super vs).worklists, ∀ v ∈ worklist,
      (p.splitFrom (.ofFormula f) a super vs).pass.score v = f.expectedScore a super worklist v) ∧
    ∀ v, p.varMark v ≠ .unseen → (p.splitFrom (.ofFormula f) a super vs).pass.score v = p.score v
  | [], p, _, _ => ⟨by simp [Pass.splitFrom, Split.worklists], fun _ _ => rfl⟩
  | v :: vs, p, hb, hfresh => by
    rw [Pass.splitFrom]
    split
    · exact Between.splitFrom_scores hfit vs hb hfresh
    · rename_i hv
      simp only [ne_eq, Decidable.not_not] at hv
      unfold explore
      simp only
      by_cases hsize : (p.search (.ofFormula f) a v).worklist.size = 1
      · obtain ⟨hb', hplaced⟩ := hb.next_isolated hfit hfresh hv hsize
        rw [if_pos hsize]
        refine hplaced.cons (Between.splitFrom_scores hfit vs hb' hplaced.fresh) rfl fun w hw => ?_
        simpa [Split.worklists, eq_comm, or_assoc] using hw
      · obtain ⟨hb', hplaced⟩ := hb.next_found hfit hfresh hv hsize
        rw [if_neg hsize]
        refine hplaced.cons (Between.splitFrom_scores hfit vs hb' hplaced.fresh) rfl fun w hw => ?_
        rw [Split.mem_worklists] at hw ⊢
        rcases hw with hw | ⟨fd, hfd, rfl⟩
        · exact .inr (.inl hw)
        · rcases List.mem_cons.1 hfd with rfl | hfd
          · exact .inl rfl
          · exact .inr (.inr ⟨fd, hfd, rfl⟩)

/-- A pass leaves for every variable that takes part the score that is expected of its search, and the scores
of the other variables as they were. -/
theorem split_scores (hfit : super.Within f) {p : Pass} (hp : p.Fits f) :
    (∀ worklist ∈ (p.split (.ofFormula f) a super).worklists, ∀ v ∈ worklist,
      (p.split (.ofFormula f) a super).pass.score v = f.expectedScore a super worklist v) ∧
    ∀ v, ¬ super.TakesPart a v → (p.split (.ofFormula f) a super).pass.score v = p.score v := by
  have hb := begin_between (a := a) hfit hp
  obtain ⟨hfresh, hkept⟩ := begin_scores (a := a) hfit hp
  obtain ⟨hworklists, hothers⟩ := hb.splitFrom_scores hfit super.vars hfresh
  refine ⟨hworklists, fun v hv => ?_⟩
  have hout : (p.begin a super).varMark v ≠ .unseen := by
    rw [(hb.outside v).2 hv]
    simp
  exact (hothers v hout).trans (hkept v hv)

end Pass

end ModelCount
