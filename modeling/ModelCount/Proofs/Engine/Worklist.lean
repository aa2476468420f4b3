/-
The searches of a decomposition. At every moment of a search the worklist lists the seen variables, each once;
what a scan takes back was not processed yet, and there are no more iterations than active variables. Between
two searches nothing is seen, and no unseen clause leads back to a placed variable. So nothing that a search
or the taking of a component asserts ever fails.
-/
import ModelCount.Proofs.Engine.Live
import ModelCount.Proofs.Pass.Turns

namespace ModelCount

namespace Engine

variable {e : Engine} {f : Formula} {super : Component}

/-- A decomposition goes from one variable of its super-component to the next. Whatever the assignment is, and
whatever the last pass left behind, every variable that is still unseen starts a search that keeps its worklist
in order, asserts nothing that fails and comes to its end; all other variables change nothing. -/
theorem decompose_worklist (he : e.Loaded f) {level : Level} (hsuper : e.superComponent level = .ok super)
    (hfit : super.Within f) :
    let after := Pass.after e.adjacency e.assignment super e.pass
    ∃ e' level', e.decompose level = .ok (e', level') ∧ e'.pass = after super.vars ∧
      ∀ done, done <+: super.vars →
        (∀ v, (after done).varMark v ≠ .seen) ∧
        (∀ c v, (after done).clauseMark c = .unseen → f.Mentions c v → (after done).varMark v ≠ .placed) ∧
        ∀ v, done ++ [v] <+: super.vars →
          ((after done).varMark v ≠ .unseen → after (done ++ [v]) = after done) ∧
          ((after done).varMark v = .unseen → ∃ start final,
            Pass.SearchTurn e.adjacency e.assignment super (after done) v (after (done ++ [v])) start final) := by
  intro after
  obtain ⟨e', level', kept, hits, hok, hd⟩ := decompose_isOk he hsuper hfit
  refine ⟨e', level', hok, ?_, fun done _ => ?_⟩
  · rw [hd.frame]
    exact (Pass.after_all ..).symm
  have hidle : Pass.Idle f e.assignment super (after done) := by
    simp only [after, he.adjacency]
    exact Pass.idle_after hfit he.pass done
  refine ⟨hidle.not_seen, hidle.detached, fun v _ => ?_⟩
  have hturn : after (done ++ [v]) = Pass.turn e.adjacency e.assignment super (after done) v := Pass.after_concat ..
  rw [hturn]
  constructor
  · intro hv
    exact if_pos hv
  · intro hv
    rw [he.adjacency]
    exact hidle.searchTurn hfit hv

end Engine

/-- The clauses (1 or 2 or 3) and (1 or 4 or 5). -/
def Cnf.sharedFirst : Cnf :=
  let v (i : Nat) : Var := ⟨i + 1, i.succ_pos⟩
  .ofClauses [[(v 0).lit true, (v 1).lit true, (v 2).lit true], [(v 0).lit true, (v 3).lit true, (v 4).lit true]] 5

/-- Once the third variable is true, the search from the first one reaches the second one in vain: the scan of
the first clause is undone. It goes on with the second clause and ends after three iterations. -/
theorem Engine.decompose_worklist_sharedFirst :
    let first : Var := ⟨1, by decide⟩
    let second : Var := ⟨2, by decide⟩
    ∃ (e₀ e e' : Engine) (super : Component) (level' : Level) (start final : Pass.Moment) (q : Pass),
      Engine.new.load (.ofCnf .sharedFirst) = .ok e₀ ∧ e₀.assign ⟨⟨3, by decide⟩, true⟩ = .ok e ∧
      e.superComponent (.new 0 1) = .ok super ∧ e.decompose (.new 0 1) = .ok (e', level') ∧
      Pass.SearchTurn e.adjacency e.assignment super (e.pass.begin e.assignment super) first q start final ∧
      final.pass.worklist.toList.map Var.id = [1, 4, 5] ∧ final.position = 3 ∧ final.pass.varMark second = .unseen ∧
      (super.vars.filter e.assignment.isActive).length = 4 := by
  intro first second
  have hcalls : (do
      let e₀ ← Engine.new.load (.ofCnf .sharedFirst)
      let e ← e₀.assign ⟨⟨3, by decide⟩, true⟩
      let super ← e.superComponent (.new 0 1)
      let p := e.pass.begin e.assignment super
      let q := p.search e.adjacency e.assignment first
      return (decide ([first] <+: super.vars), p.varMark first, q.worklist.toList.map Var.id, q.varMark second,
        (super.vars.filter e.assignment.isActive).length)) =
        (.ok (true, .unseen, [1, 4, 5], .unseen, 4) : Except EngineError _) := by decide +kernel
  simp only [bind_eq_ok] at hcalls
  obtain ⟨e₀, hload, e, hassign, super, hsuper, h⟩ := hcalls
  injection h with h
  simp only [Prod.mk.injEq, decide_eq_true_eq] at h
  obtain ⟨hbegins, hfirst, hlist, hsecond, hactive⟩ := h
  obtain ⟨super', hsuper', hfit⟩ := load_superComponent hload
  have he := (load_eq_ok hload).1
  obtain rfl := assign_eq_ok hassign
  cases hsuper.symm.trans hsuper'
  obtain ⟨e', level', hok, -, hturns⟩ :=
    decompose_worklist (he.setAssignment (Assignment.varCount_set ..)) hsuper hfit
  obtain ⟨-, hsearch⟩ := (hturns [] List.nil_prefix).2.2 first hbegins
  obtain ⟨start, final, hturn⟩ := hsearch hfirst
  have hlist' : final.pass.worklist.toList.map Var.id = [1, 4, 5] := by
    rw [hturn.pass_eq]
    exact hlist
  refine ⟨e₀, _, e', super, level', start, final, _, hload, hassign, hsuper, hok, hturn, hlist', ?_, ?_, hactive⟩
  · have hlength := congrArg List.length hlist'
    rw [List.length_map, Array.length_toList] at hlength
    rw [hturn.final_position, hlength]
    rfl
  · rw [hturn.pass_eq]
    exact hsecond

end ModelCount
