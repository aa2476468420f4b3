/-
The scores that a decomposition leaves. Every variable of the super-component that takes part is in the
worklist of one search of the pass and has the score that can be read off this worklist; all other
variables keep their scores, and the scores stay within a word.
-/
import ModelCount.Proofs.Engine.Decomposition
import ModelCount.Proofs.Pass.InBounds

namespace ModelCount

namespace Engine

variable {e e' : Engine} {f : Formula} {super : Component}

theorem score_of_le {v : Var} (hv : v.id ≤ e.assignment.varCount) : e.score v = .ok (e.pass.score v) := by
  have hindex : v.index < e.assignment.varCount := Var.index_lt_iff.2 hv
  simp only [score, Assignment.require, if_pos hindex, Except.mapError, bind, Except.bind, pure, Except.pure]

/-- A decomposition leaves for every variable that takes part the score that is expected of its search, and
the scores of the other variables as they were. Every variable that takes part is in the worklist of exactly
one search, and no score goes beyond a word or below zero on the way. -/
theorem decompose_scores (he : e.Loaded f) (hbuild : Adjacency.build f = .ok e.adjacency)
    (hmax : f.varCount ≤ Var.maxId) {level : Level} (hsuper : e.superComponent level = .ok super)
    (hfit : super.Within f) :
    ∃ e' level', e.decompose level = .ok (e', level') ∧
      (e.passOver super).worklists.flatten.Perm (super.vars.filter e.assignment.isActive) ∧
      (∀ worklist ∈ (e.passOver super).worklists, ∀ v ∈ worklist,
        e'.score v = .ok (f.expectedScore e.assignment super worklist v)) ∧
      (∀ v, v.id ≤ f.varCount → ¬ super.TakesPart e.assignment v → e'.score v = e.score v) ∧
      e.pass.split? e.adjacency e.assignment super = some (e.passOver super) := by
  obtain ⟨e', level', kept, hits, hok, hd⟩ := decompose_isOk he hsuper hfit
  have hs := he.passOver_decomposes hfit
  have hsplit : e.passOver super = e.pass.split (.ofFormula f) e.assignment super := by rw [passOver, he.adjacency]
  obtain ⟨hworklists, hothers⟩ := Pass.split_scores (a := e.assignment) hfit he.pass
  rw [← hsplit] at hworklists hothers
  have hscore : ∀ v : Var, v.id ≤ f.varCount → e'.score v = .ok ((e.passOver super).pass.score v) := fun v hv => by
    rw [hd.frame]
    exact score_of_le (hv.trans_eq he.assignment.symm)
  refine ⟨e', level', hok, hs.worklists_perm, fun worklist hw v hv => ?_, fun v hv htakes => ?_, ?_⟩
  · have hmem : v ∈ super.vars.filter e.assignment.isActive :=
      hs.worklists_perm.subset (List.mem_flatten.2 ⟨worklist, hw, hv⟩)
    rw [hscore v (hfit.var_id_le v (List.mem_filter.1 hmem).1), hworklists worklist hw v hv]
  · rw [hscore v hv, score_of_le (hv.trans_eq he.assignment.symm), hothers v htakes]
  · rw [hsplit, he.adjacency]
    exact Pass.split?_eq hfit he.assignment (Formula.scores_fit hbuild hmax) he.pass

/-- The search of the variable 3 meets both long clauses there, and the variables 1 and 2 are the ends of the
binary clause. -/
theorem decompose_scores_twoParts :
    ∃ (e e' : Engine) (super : Component) (level' : Level), Engine.new.load (.ofCnf .twoParts) = .ok e ∧
      e.superComponent (.new 0 1) = .ok super ∧ e.decompose (.new 0 1) = .ok (e', level') ∧
      (e.passOver super).worklists.map (·.map Var.id) = [[7], [1, 2], [3, 4, 5, 6]] ∧
      e'.vars.mapM e'.score = .ok [1, 1, 4, 2, 1, 1, 0] ∧
      ∀ worklist ∈ (e.passOver super).worklists, ∀ v ∈ worklist,
        e'.score v = .ok ((Formula.ofCnf .twoParts).expectedScore e.assignment super worklist v) := by
  have hcalls : (do
      let e ← Engine.new.load (.ofCnf .twoParts)
      let super ← e.superComponent (.new 0 1)
      let d ← e.decompose (.new 0 1)
      let scores ← d.1.vars.mapM d.1.score
      return ((e.passOver super).worklists.map (·.map Var.id), scores)) =
        (.ok ([[7], [1, 2], [3, 4, 5, 6]], [1, 1, 4, 2, 1, 1, 0]) : Except EngineError _) := by decide +kernel
  simp only [bind_eq_ok] at hcalls
  obtain ⟨e, hload, super, hsuper, ⟨e', level'⟩, hd, scores, hscores, h⟩ := hcalls
  injection h with h
  obtain ⟨hworklists, rfl⟩ := Prod.mk.inj h
  obtain ⟨he, -⟩ := load_eq_ok hload
  obtain ⟨adjacency, hbuild, -⟩ := bind_eq_ok.1 hload
  have hbuild : Adjacency.build (.ofCnf .twoParts) = .ok e.adjacency := by
    rw [he.adjacency, mapError_eq_ok.1 hbuild, build_eq_ok (mapError_eq_ok.1 hbuild)]
  obtain ⟨_, hsuper', hfit⟩ := load_superComponent hload
  cases hsuper.symm.trans hsuper'
  obtain ⟨_, _, hd', -, hexpected, -⟩ := decompose_scores he hbuild (by decide) hsuper hfit
  cases hd.symm.trans hd'
  exact ⟨e, e', super, level', hload, hsuper, hd, hworklists, hscores, hexpected⟩

end Engine

end ModelCount
