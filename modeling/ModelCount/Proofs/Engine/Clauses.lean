/-
The clauses of the components that a decomposition finds. Every clause that links a variable of a
component is one of its clauses, and no clause is in two components. A clause whose only variable that
takes part is isolated is left seen by the search of that variable, and the next component that is
found takes it along; without such clauses a component has exactly the clauses of its variables.
-/
import ModelCount.Proofs.Engine.Live

namespace ModelCount

namespace Engine

variable {e : Engine} {f : Formula}

/-- The root component is the super-component of the first level after loading. -/
theorem load_superComponent_root {e₀ : Engine} (h : e₀.load f = .ok e) :
    ∃ entry, e.superComponent (.new 0 1) = .ok { root f with entry } := by
  obtain ⟨-, -, -, entry, hitems, -⟩ := load_eq_ok h
  refine ⟨entry, ?_⟩
  simp [superComponent, component, ComponentStack.isEmpty, live, ComponentStack.get?, hitems, Level.new]

/-- A component that a decomposition finds has all clauses without a true literal that mention one of its
variables, and no satisfied clause; no clause is in two components, and the views have no others. A clause
of a component without any of its variables is left with an isolated variable alone, so when no clause is,
the components have exactly the clauses of their variables. -/
theorem decompose_clauses (he : e.Loaded f) {level : Level} {super view : Component}
    (hsuper : e.superComponent level = .ok super) (ha : f.Arises { super with entry := none } view) :
    ∃ e' level' kept hits, e.decompose level = .ok (e', level') ∧ Decomposed e level super kept hits e' level' ∧
      (∀ fd ∈ kept.map Prod.fst ++ hits.map Prod.fst,
        (∀ k, fd.component.Touches f e.assignment super k → k ∈ fd.component.clauses) ∧
        (∀ k ∈ fd.component.clauses, fd.component.Touches f e.assignment super k ∨ f.Lone e.assignment super k) ∧
        fd.view.vars = fd.component.vars ∧ fd.view.clauses.Sublist fd.component.clauses ∧
        (f.UnitFree e.assignment super →
          ∀ k, k ∈ fd.component.clauses ↔ fd.component.Touches f e.assignment super k)) ∧
      (kept.map Prod.fst ++ hits.map Prod.fst).Pairwise fun fd fd' =>
        fd.component.clauses.Disjoint fd'.component.clauses := by
  have hfit : super.Within f := ha.complete.within.of_sublist (.refl _) (.refl _)
  obtain ⟨e', level', kept, hits, hok, hd⟩ := decompose_isOk he hsuper hfit
  have hs := he.passOver_decomposes hfit
  refine ⟨e', level', kept, hits, hok, hd, fun fd hfd => ?_, ?_⟩
  · have hfd := hs.found fd (hd.perm.mem_iff.1 hfd)
    refine ⟨fun k => hfd.mem_of_touches, fun k => hfd.touches_or_lone, ?_, ?_, hfd.mem_iff_touches⟩
    · rw [hfd.view_eq]
    · rw [hfd.view_eq]
      exact List.filter_sublist
  · exact (hd.perm.pairwise_iff fun h => h.symm).2 hs.clauses_disjoint

/-- While nothing is assigned, no clause of the root component is a unit. -/
theorem unitFree_root (f : Formula) (entry : Option Slot) :
    f.UnitFree (.empty f.varCount) { root f with entry } := by
  intro k hk _ v _ _
  have htakes : ∀ w, f.Mentions k w → Component.TakesPart { root f with entry } (.empty f.varCount) w := fun w hw =>
    ⟨Var.mem_firstN.2 hw.id_le, Assignment.isActive_iff.2 (Assignment.varValue_empty _ w)⟩
  obtain ⟨w, w', hne, hw, hw'⟩ := Formula.exists_mentions_ne hk
  by_cases h : w = v
  · exact ⟨w', h ▸ hne.symm, htakes w' hw', hw'⟩
  · exact ⟨w, h, htakes w hw, hw⟩

theorem decompose_clauses_twoParts :
    ∃ (e : Engine) (super : Component), Engine.new.load (.ofCnf .twoParts) = .ok e ∧
      e.superComponent (.new 0 1) = .ok super ∧ ∃ e' level' kept hits, e.decompose (.new 0 1) = .ok (e', level') ∧
        Decomposed e (.new 0 1) super kept hits e' level' ∧
        ∀ fd ∈ kept.map Prod.fst ++ hits.map Prod.fst, ∀ k,
          k ∈ fd.component.clauses ↔ fd.component.Touches (.ofCnf .twoParts) e.assignment super k := by
  obtain ⟨e, hload⟩ := Engine.load_twoParts .new
  obtain ⟨entry, hsuper⟩ := load_superComponent_root hload
  obtain ⟨hloaded, hempty, -⟩ := load_eq_ok hload
  obtain ⟨e', level', kept, hits, hok, hd, hclauses, -⟩ := decompose_clauses hloaded hsuper .root
  refine ⟨e, _, hload, hsuper, e', level', kept, hits, hok, hd, fun fd hfd => (hclauses fd hfd).2.2.2.2 ?_⟩
  rw [hempty]
  exact unitFree_root _ entry

end Engine

/-- The clauses (1 or 2 or 3) and (4 or 5) over five variables. -/
def Cnf.loneAndPair : Cnf :=
  let v (i : Nat) : Var := ⟨i + 1, i.succ_pos⟩
  .ofClauses [[(v 0).lit true, (v 1).lit true, (v 2).lit true], [(v 3).lit true, (v 4).lit true]] 5

/-- Not every component has the clauses of its variables alone: once the variables 2 and 3 are false, the
long clause is left with variable 1, which is isolated, and the component of 4 and 5 takes it. -/
theorem Engine.not_forall_mem_iff_touches :
    ¬ ∀ (f : Formula) (e e' : Engine) (level level' : Level) (super view : Component), e.Loaded f →
      e.superComponent level = .ok super → f.Arises { super with entry := none } view →
      e.decompose level = .ok (e', level') → ∀ c ∈ e'.stack.items.drop e.stack.size, ∀ k,
        k ∈ c.clauses ↔ c.Touches f e.assignment super k := by
  intro hall
  let pair : Component := { vars := [⟨4, by decide⟩, ⟨5, by decide⟩], clauses := [⟨1, by decide⟩], entry := some 2 }
  have hcalls : (do
      let e₁ ← Engine.new.load (.ofCnf .loneAndPair)
      let e₂ ← e₁.assign ⟨⟨2, by decide⟩, false⟩
      let e₃ ← e₂.assign ⟨⟨3, by decide⟩, false⟩
      let d ← e₃.decompose (.new 0 1)
      return d.1.stack.items.drop e₃.stack.size) = (.ok [pair] : Except EngineError _) := by decide +kernel
  simp only [bind_eq_ok] at hcalls
  obtain ⟨e₁, hload, e₂, h₂, e₃, h₃, ⟨e₄, level⟩, hd, hblock⟩ := hcalls
  obtain ⟨entry, hsuper⟩ := load_superComponent_root hload
  obtain rfl := assign_eq_ok h₂
  obtain rfl := assign_eq_ok h₃
  have hloaded := (load_eq_ok hload).1
  have h := hall _ _ _ _ _ _ _ ((hloaded.setAssignment (Assignment.varCount_set ..)).setAssignment
    (Assignment.varCount_set ..)) hsuper .root hd pair (by rw [Except.ok.inj hblock]; simp) ⟨1, by decide⟩
  obtain ⟨-, -, v, hv, hkv⟩ := h.1 (by decide)
  have hnot : ∀ v ∈ pair.vars, ¬ (Formula.ofCnf .loneAndPair).Mentions ⟨1, by decide⟩ v := by decide
  exact hnot v hv hkv

end ModelCount
