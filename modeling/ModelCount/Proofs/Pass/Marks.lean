/-
The marks of a pass. Beginning sets those of the super-component, and taking a component out places
exactly what was seen.
-/
import Mathlib.Data.List.Sublists
import ModelCount.Proofs.Pass.Search

namespace ModelCount

namespace Pass

variable {f : Formula} {a : Assignment} {super : Component}

/-! ## Beginning -/

theorem enterVars_reads (a : Assignment) (vs : List Var) (p : Pass) :
    (∀ v, (vs.foldl (enterVar a) p).varMark v =
      if v ∈ vs ∧ a.isActive v = true ∧ v.index < p.vars.size then .unseen else p.varMark v) ∧
    (vs.foldl (enterVar a) p).vars.size = p.vars.size ∧ (vs.foldl (enterVar a) p).clauses = p.clauses ∧
    (vs.foldl (enterVar a) p).scores.size = p.scores.size := by
  induction vs generalizing p with
  | nil => simp
  | cons w vs ih =>
    obtain ⟨hv, hsize, hc, hs⟩ := ih (enterVar a p w)
    have hentered : (∀ v, (enterVar a p w).varMark v =
        if w = v ∧ a.isActive v = true ∧ v.index < p.vars.size then .unseen else p.varMark v) ∧
        (enterVar a p w).vars.size = p.vars.size ∧ (enterVar a p w).clauses = p.clauses ∧
        (enterVar a p w).scores.size = p.scores.size := by
      unfold enterVar
      by_cases hw : a.isActive w = true
      · rw [if_pos hw]
        refine ⟨fun v => ?_, Table.size_set .., rfl, Table.size_set ..⟩
        refine (varMark_markVar p w v .unseen).trans ?_
        by_cases h : w = v
        · subst h; simp [hw]
        · simp [h]
      · rw [if_neg hw]
        refine ⟨fun v => ?_, rfl, rfl, rfl⟩
        by_cases h : w = v
        · subst h; simp [hw]
        · simp [h]
    rw [List.foldl_cons]
    refine ⟨fun v => ?_, hsize.trans hentered.2.1, hc.trans hentered.2.2.1, hs.trans hentered.2.2.2⟩
    rw [hv, hentered.1, hentered.2.1]
    by_cases h : w = v
    · subst h
      split
      · rename_i hw; simp [hw.2]
      · simp
    · simp [h, Ne.symm h]

theorem enterClauses_reads (cs : List ClauseId) (p : Pass) :
    (∀ c, (cs.foldl (fun p c => p.markClause c .unseen) p).clauseMark c =
      if c ∈ cs ∧ c.index < p.clauses.size then .unseen else p.clauseMark c) ∧
    (cs.foldl (fun p c => p.markClause c .unseen) p).clauses.size = p.clauses.size ∧
    (cs.foldl (fun p c => p.markClause c .unseen) p).vars = p.vars ∧
    (cs.foldl (fun p c => p.markClause c .unseen) p).scores = p.scores := by
  induction cs generalizing p with
  | nil => simp
  | cons d cs ih =>
    obtain ⟨hc, hsize, hv, hs⟩ := ih (p.markClause d .unseen)
    have hd : (p.markClause d .unseen).clauses.size = p.clauses.size := Table.size_set ..
    rw [List.foldl_cons]
    refine ⟨fun c => ?_, hsize.trans hd, hv, hs⟩
    rw [hc, hd, clauseMark_markClause]
    by_cases h : d = c
    · subst h
      split
      · rename_i hd; simp [hd.2]
      · simp
    · simp [h, Ne.symm h]

/-- A pass begins with the variables that take part and all clauses of the super-component unseen. -/
theorem begin_reads (hfit : super.Within f) {p : Pass} (hp : p.Fits f) :
    (p.begin a super).Fits f ∧
    (∀ v, (p.begin a super).varMark v = if v ∈ super.vars ∧ a.isActive v = true then .unseen else .outside) ∧
    ∀ c, (p.begin a super).clauseMark c = if c ∈ super.clauses then .unseen else .outside := by
  let p₁ : Pass := { p with
    vars := .replicate p.vars.size .outside
    clauses := .replicate p.clauses.size .outside }
  obtain ⟨hv, hvsize, hvc, hvs⟩ := enterVars_reads a super.vars p₁
  obtain ⟨hc, hcsize, hcv, hcs⟩ := enterClauses_reads super.clauses (super.vars.foldl (enterVar a) p₁)
  have hsize : p₁.vars.size = f.varCount := (Table.size_replicate ..).trans hp.vars
  have hcsize' : p₁.clauses.size = f.longs.length := (Table.size_replicate ..).trans hp.clauses
  have hdefv : ∀ v, p₁.varMark v = .outside := fun v => by
    simp only [varMark, p₁, Table.get_replicate]; split <;> rfl
  have hdefc : ∀ c, p₁.clauseMark c = .outside := fun c => by
    simp only [clauseMark, p₁, Table.get_replicate]; split <;> rfl
  refine ⟨⟨?_, ?_, ?_⟩, fun v => ?_, fun c => ?_⟩
  · exact (congrArg Table.size hcv).trans (hvsize.trans hsize)
  · exact hcsize.trans ((congrArg Table.size hvc).trans hcsize')
  · exact (congrArg Table.size hcs).trans (hvs.trans hp.scores)
  · have hread : (p.begin a super).varMark v = (super.vars.foldl (enterVar a) p₁).varMark v :=
      congrArg (·.get v.index) hcv
    rw [hread, hv, hsize, hdefv]
    refine if_congr (and_congr_right fun hmem => and_iff_left ?_) rfl rfl
    rw [← Nat.succ_le_iff, Nat.succ_eq_add_one, v.index_add_one]
    exact hfit.var_id_le v hmem
  · have hread : (super.vars.foldl (enterVar a) p₁).clauseMark c = p₁.clauseMark c := congrArg (·.get c.index) hvc
    refine (hc c).trans ?_
    rw [hread, hvc, hcsize', hdefc]
    exact if_congr (and_iff_left_of_imp fun hmem => Formula.mem_clauseIds.1 (hfit.clause_mem c hmem)) rfl rfl

/-! ## Taking a component out -/

theorem placeVars_reads : ∀ (vs : List Var) (p : Pass), vs.Nodup →
    (p.placeVars vs).1 = vs.filter (fun v => p.varMark v = .seen) ∧
    (∀ v, (p.placeVars vs).2.varMark v = if v ∈ vs ∧ p.varMark v = .seen then .placed else p.varMark v) ∧
    (p.placeVars vs).2.vars.size = p.vars.size ∧ (p.placeVars vs).2.clauses = p.clauses ∧
    (p.placeVars vs).2.scores = p.scores
  | [], p, _ => by simp [placeVars]
  | w :: vs, p, hnd => by
    obtain ⟨hw, hnd⟩ := List.nodup_cons.1 hnd
    rw [placeVars]
    split
    · rename_i hseen
      have hlt := index_lt_of_varMark (p := p) (v := w) (by rw [hseen]; simp)
      obtain ⟨h1, h2, h3, h4, h5⟩ := placeVars_reads vs (p.markVar w .placed) hnd
      have hmark : ∀ v ∈ vs, (p.markVar w .placed).varMark v = p.varMark v := fun v hv => by
        rw [varMark_markVar, if_neg]
        rintro ⟨rfl, -⟩
        exact hw hv
      refine ⟨?_, fun v => ?_, h3.trans (Table.size_set ..), h4, h5⟩
      · simp only [List.filter_cons, hseen, decide_true, if_true, h1]
        exact congrArg _ (List.filter_congr fun v hv => by rw [hmark v hv])
      · rw [h2, varMark_markVar]
        by_cases h : w = v
        · subst h; simp [hlt, hseen, hw]
        · simp [h, Ne.symm h]
    · rename_i hseen
      obtain ⟨h1, h2, h3⟩ := placeVars_reads vs p hnd
      refine ⟨by simp [hseen, h1], fun v => ?_, h3⟩
      rw [h2]
      by_cases h : v = w
      · subst h; simp [hseen]
      · simp [h]

/-- A clause that a search came to and did not find satisfied. -/
def met (p : Pass) (c : ClauseId) : Bool := p.clauseMark c = .seen || p.clauseMark c = .seenWhole

theorem placeClauses_reads : ∀ (cs : List ClauseId) (p : Pass), cs.Nodup →
    (p.placeClauses cs).1 = cs.filter p.met ∧
    (p.placeClauses cs).2.1 = cs.filter (fun c => p.clauseMark c = .seen) ∧
    (∀ c, (p.placeClauses cs).2.2.clauseMark c = if c ∈ cs ∧ p.met c then .placed else p.clauseMark c) ∧
    (p.placeClauses cs).2.2.clauses.size = p.clauses.size ∧ (p.placeClauses cs).2.2.vars = p.vars ∧
    (p.placeClauses cs).2.2.scores = p.scores
  | [], p, _ => by simp [placeClauses]
  | d :: cs, p, hnd => by
    obtain ⟨hd, hnd⟩ := List.nodup_cons.1 hnd
    obtain ⟨h1, h2, h3, h4, h5, h6⟩ := placeClauses_reads cs (p.markClause d .placed) hnd
    have hmark : ∀ c ∈ cs, (p.markClause d .placed).clauseMark c = p.clauseMark c := fun c hc => by
      rw [clauseMark_markClause, if_neg]
      rintro ⟨rfl, -⟩
      exact hd hc
    have hmet : ∀ c ∈ cs, (p.markClause d .placed).met c = p.met c := fun c hc => by
      simp only [Pass.met, hmark c hc]
    have h3' : p.met d = true → ∀ c, ((p.markClause d .placed).placeClauses cs).2.2.clauseMark c =
        if c ∈ d :: cs ∧ p.met c then .placed else p.clauseMark c := fun hmd c => by
      have hlt := index_lt_of_clauseMark (p := p) (c := d) fun h => by simp [Pass.met, h] at hmd
      rw [h3]
      by_cases h : d = c
      · subst h; simp [hd, hmd, clauseMark_markClause, hlt]
      · by_cases hc : c ∈ cs <;> simp [hc, hmet, hmark, clauseMark_markClause, h, Ne.symm h]
    rw [placeClauses]
    split
    · rename_i hseen
      have hmd : p.met d = true := by simp [Pass.met, hseen]
      refine ⟨?_, ?_, h3' hmd, h4.trans (Table.size_set ..), h5, h6⟩
      · simp only [List.filter_cons, hmd, if_true, h1]
        exact congrArg _ (List.filter_congr fun c hc => hmet c hc)
      · simp only [List.filter_cons, hseen, decide_true, if_true, h2]
        exact congrArg _ (List.filter_congr fun c hc => by rw [hmark c hc])
    · rename_i hseen
      have hmd : p.met d = true := by simp [Pass.met, hseen]
      refine ⟨?_, ?_, h3' hmd, h4.trans (Table.size_set ..), h5, h6⟩
      · simp only [List.filter_cons, hmd, if_true, h1]
        exact congrArg _ (List.filter_congr fun c hc => hmet c hc)
      · simp only [List.filter_cons, hseen, h2]
        exact List.filter_congr fun c hc => by rw [hmark c hc]
    · rename_i hs hw
      have hmd : p.met d = false := by simpa [Pass.met] using ⟨hs, hw⟩
      obtain ⟨h1, h2, h3, h4⟩ := placeClauses_reads cs p hnd
      refine ⟨by simp [hmd, h1], ?_, fun c => ?_, h4⟩
      · have : p.clauseMark d ≠ .seen := hs
        simp [this, h2]
      · rw [h3]
        by_cases h : c = d
        · subst h; simp [hmd]
        · simp [h]

/-- Taking a component out takes what was seen, and places it. -/
theorem takeComponent_reads {p q : Pass} (hvars : super.vars.Nodup) (hclauses : super.clauses.Nodup)
    {component view : Component} (hq : p.takeComponent super = (component, view, q)) :
    component = { vars := super.vars.filter fun v => p.varMark v = .seen, clauses := super.clauses.filter p.met } ∧
    view = { vars := component.vars, clauses := super.clauses.filter fun c => p.clauseMark c = .seen } ∧
    (∀ v, q.varMark v = if v ∈ super.vars ∧ p.varMark v = .seen then .placed else p.varMark v) ∧
    (∀ c, q.clauseMark c = if c ∈ super.clauses ∧ p.met c then .placed else p.clauseMark c) ∧
    (p.Fits f → q.Fits f) := by
  obtain ⟨hv1, hv2, hv3, hv4, hv5⟩ := placeVars_reads super.vars p hvars
  obtain ⟨hc1, hc2, hc3, hc4, hc5, hc6⟩ := placeClauses_reads super.clauses (p.placeVars super.vars).2 hclauses
  -- Placing the variables leaves the marks of the clauses alone.
  have hmark : ∀ c, (p.placeVars super.vars).2.clauseMark c = p.clauseMark c := fun c =>
    congrArg (·.get c.index) hv4
  have hmet : ∀ c, (p.placeVars super.vars).2.met c = p.met c := fun c => by simp only [Pass.met, hmark]
  simp only [hmark, hmet, funext hmet] at hc1 hc2 hc3
  simp only [Pass.takeComponent, Prod.mk.injEq] at hq
  obtain ⟨rfl, rfl, rfl⟩ := hq
  refine ⟨by rw [hv1, hc1], by rw [hc2], fun v => (congrArg (·.get v.index) hc5).trans (hv2 v), hc3, fun hfits => ?_⟩
  exact ⟨(congrArg Table.size hc5).trans (hv3.trans hfits.vars),
    hc4.trans ((congrArg Table.size hv4).trans hfits.clauses),
    (congrArg Table.size (hc6.trans hv5)).trans hfits.scores⟩

end Pass

end ModelCount
