/-
Counting by decomposition is right. A branch counts the models in which its literal holds, and so both
branches of a component together its residual count; the number of variables bounds the depth. Every
branch leaves the stack and the assignment as it found them.
-/
import ModelCount.Proofs.Counting.Enumeration
import ModelCount.Proofs.Counting.Level

namespace ModelCount

namespace Engine

variable {f : Formula} {e e' : Engine} {solve : Engine → Nat → Except CountError (Nat × Engine)} {size : Nat}

/-! ## Counting a branch -/

theorem assign_isOk (h : e.Loaded f) {l : Lit} (hl : l.var.id ≤ f.varCount) :
    e.assign l = .ok { e with assignment := e.assignment.set l } := by
  have hlt : l.var.index < e.assignment.varCount := by
    rw [h.assignment]
    exact Var.index_lt_iff.2 hl
  simp only [assign, Assignment.assign, Assignment.require, if_pos hlt, bind, Except.bind, pure, Except.pure,
    Except.mapError]

/-- A branch ends in a conflict, or its level is counted; in both cases the level is released and the
variables are unassigned. -/
theorem countBranch_conflict {cs : List (List Lit)} {level : Level} {l : Lit} {p : Propagation}
    (ha : e.assign l = .ok { e with assignment := e.assignment.set l })
    (hp : (e.assignment.set l).propagate cs [l.var] = p) (hc : p.consistent = false) :
    countBranch solve cs e level l =
      .ok ({ Engine.release { e with assignment := p.assignment } (level.times 0) with
        assignment := p.assignment.clearAll p.trail }, (level.times 0).resetRemaining) := by
  simp only [countBranch, ha, Except.mapError, bind, Except.bind, hp, hc, Bool.false_eq_true, if_false, pure, Except.pure]
  rfl

theorem countBranch_consistent {cs : List (List Lit)} {level level₂ : Level} {l : Lit} {p : Propagation} {e₂ : Engine}
    (ha : e.assign l = .ok { e with assignment := e.assignment.set l })
    (hp : (e.assignment.set l).propagate cs [l.var] = p) (hc : p.consistent = true)
    (hok : countLevel solve (p.assignment.varCount + 1) { e with assignment := p.assignment } level = .ok (e₂, level₂)) :
    countBranch solve cs e level l =
      .ok ({ e₂.release level₂ with assignment := e₂.assignment.clearAll p.trail }, level₂.resetRemaining) := by
  simp only [countBranch, ha, Except.mapError, bind, Except.bind, hp, hc, if_true, varCount, hok, pure, Except.pure]
  rfl

/-- After a branch its components are taken off, and its variables are unassigned. -/
theorem release_restores (h : e'.Sound f) {block : List Component} (hitems : e'.stack.items = e.stack.items ++ block)
    {level : Level} (hoffset : level.offset = e.stack.size) {trail : List Var}
    (hcount : e'.assignment.varCount = e.assignment.varCount) (hrestore : e'.assignment.clearAll trail = e.assignment) :
    Sound { e'.release level with assignment := e'.assignment.clearAll trail } f ∧
      Restores { e'.release level with assignment := e'.assignment.clearAll trail } e := by
  rw [hrestore]
  refine ⟨(release_sound h level).setAssignment hcount.symm, ?_, rfl⟩
  show ComponentStack.mk (e'.stack.items.take level.offset) = e.stack
  rw [hitems, hoffset, ComponentStack.size, List.take_left']
  rfl

/-- A branch counts the models of a component in which its literal holds, and puts the engine back. -/
theorem countBranch_spec (hsolve : Solves f solve size) {cs : List (List Lit)} (hcs : f.ListedIn cs) (h : e.Sound f)
    (hsettled : f.Settled e.assignment) {level : Level} {c : Component} (hc : e.superComponent level = .ok c)
    (hfresh : c.Fresh f e.assignment) (hsize : c.vars.length ≤ size) (hoffset : level.offset = e.stack.size)
    (hsane : level.active.Sane) {l : Lit} (hl : l.var ∈ c.vars) :
    ∃ e' level', countBranch solve cs e level l = .ok (e', level') ∧ e'.Sound f ∧ e'.Restores e ∧
      level.Continues level' ∧ level'.active.count = level.active.value *
        ((models c.vars.toFinset (f.residual c)).filter fun T => l.holds (decide (l.var ∈ T)) = true).card := by
  have hb : f.Block e.assignment c.vars.toFinset := by
    rw [← hfresh.openVars_eq]
    exact hfresh.block h.loaded.assignment hsettled
  have hlV := List.mem_toFinset.2 hl
  obtain ⟨hr, hkeeps, hconflict, hcons⟩ := Propagation.propagate_spec hb (fun cl hcl hp _ => hsettled cl hcl hp) hcs
    ((Propagation.reached_start hb).assign hb hlV (Assignment.isActive_iff.1 (hfresh.active _ hl)))
  have hmodels : models c.vars.toFinset (f.pending e.assignment c.vars.toFinset) =
      models c.vars.toFinset (f.residual c) := models_congr _ (hfresh.mem_pending hsettled)
  have hagrees : ((models c.vars.toFinset (f.residual c)).filter fun T =>
        Agrees (e.assignment.set l) c.vars.toFinset T).card =
      ((models c.vars.toFinset (f.residual c)).filter fun T => l.holds (decide (l.var ∈ T)) = true).card :=
    congrArg Finset.card (Finset.filter_congr fun T _ => hb.agrees_set hlV)
  rw [hmodels, hagrees] at hconflict hcons
  -- From here on only what propagation guarantees about its outcome is used.
  have hassign := assign_isOk h.loaded (hfresh.within.var_id_le _ hl)
  have hrestore := hr.clearAll_eq hb
  generalize hp : (e.assignment.set l).propagate cs [l.var] = p at hr hkeeps hconflict hcons hrestore
  let e₁ : Engine := { e with assignment := p.assignment }
  have h₁ : e₁.Sound f := h.setAssignment hr.varCount
  rcases hcase : p.consistent with _ | _
  · have hcont := level.continues_times 0
    obtain ⟨h', hr'⟩ := release_restores (e := e) h₁ (List.append_nil _).symm (hcont.offset.trans hoffset) hr.varCount
      hrestore
    refine ⟨_, _, countBranch_conflict hassign hp hcase, h', hr', hcont.trans (Level.continues_resetRemaining _), ?_⟩
    rw [hconflict hcase, Nat.mul_zero, Level.active_resetRemaining, Level.active_times, Branch.count_times_zero hsane]
  · obtain ⟨hsettled₁, hcard⟩ := hcons hcase
    -- The branch variable is assigned, so the solver is asked for smaller components only.
    have hopen : (c.openVars p.assignment).card < size := by
      have hless : (c.openVars p.assignment).card < c.vars.toFinset.card := by
        refine Finset.card_lt_card (Finset.filter_ssubset.2 ⟨l.var, hlV, ?_⟩)
        rw [Assignment.isActive_iff, hkeeps l.var l.positive (by simp [Assignment.varValue_set_of_le (hb.id_le _ hlV)])]
        simp
      exact hless.trans_le ((List.toFinset_card_le _).trans hsize)
    obtain ⟨e₂, level₂, hok, h₂, ha, ⟨block, hitems⟩, hcont, hcount⟩ := countLevel_spec hsolve h₁ hsettled₁ level
      hc (hfresh.toOwns.mono (hr.extends hb)) hoffset hopen hsane
    obtain ⟨h', hr'⟩ := release_restores (e := e) h₂ hitems (hcont.offset.trans hoffset)
      ((congrArg Assignment.varCount ha).trans hr.varCount) ((congrArg (·.clearAll p.trail) ha).trans hrestore)
    refine ⟨_, _, countBranch_consistent hassign hp hcase hok, h', hr',
      hcont.trans (Level.continues_resetRemaining _), ?_⟩
    rw [hcard]
    exact hcount

/-! ## Counting a component -/

/-- The variable that is branched on is one of the given variables. -/
theorem branchVar_mem (e : Engine) {vs : List Var} (h : vs ≠ []) : ∃ v ∈ vs, e.branchVar vs = some v := by
  obtain ⟨v, rest, rfl⟩ := List.exists_cons_of_ne_nil h
  refine ⟨_, ?_, rfl⟩
  have hbest : ∀ (ws : List Var) (best : Var),
      ws.foldl (fun best w => if e.pass.score best ≤ e.pass.score w then w else best) best ∈ best :: ws := by
    intro ws
    induction ws with
    | nil => exact fun best => List.mem_cons_self ..
    | cons w ws ih =>
      intro best
      rw [List.foldl_cons]
      split
      · exact List.mem_cons_of_mem _ (ih w)
      · rcases List.mem_cons.1 (ih best) with hb | hb
        · rw [hb]
          exact List.mem_cons_self ..
        · exact List.mem_cons_of_mem _ (List.mem_cons_of_mem _ hb)
  exact hbest rest v

/-- Each branch adds the models in which the branch variable has its value. -/
theorem countComponent_solves {cs : List (List Lit)} (hcs : f.ListedIn cs) :
    ∀ depth, Solves f (countComponent cs depth) depth := by
  intro depth
  induction depth with
  | zero =>
    intro e index c _ _ _ _ _ hlen
    exact (Nat.not_lt_zero _ hlen).elim
  | succ depth ih =>
    intro e index c h hsettled hc hfresh hne hlen
    obtain ⟨v, hv, hbranch⟩ := e.branchVar_mem hne
    have hsize := Nat.le_of_lt_succ hlen
    have hsuper : e.superComponent (.new index e.stack.size) = .ok c := component_iff.2 hc
    obtain ⟨e₁, level₁, hok₁, h₁, hr₁, hcont₁, hcount₁⟩ := countBranch_spec ih hcs h hsettled hsuper hfresh hsize rfl
      Branch.sane_default (l := v.lit true) hv
    have hin₁ : level₁.inSecond = false := hcont₁.inSecond
    have hactive₁ : level₁.changeBranch.active = {} := hcont₁.second rfl
    have hsuper₁ : e₁.superComponent level₁.changeBranch = .ok c := by
      rw [superComponent, component_iff, hr₁.stack]
      exact hcont₁.superIndex ▸ hc
    obtain ⟨e₂, level₂, hok₂, h₂, hr₂, hcont₂, hcount₂⟩ := countBranch_spec ih hcs h₁ (hr₁.assignment ▸ hsettled) hsuper₁
      (hr₁.assignment ▸ hfresh) hsize (hcont₁.offset.trans (congrArg ComponentStack.size hr₁.stack).symm)
      (hactive₁ ▸ Branch.sane_default) (l := v.lit false) hv
    have hin₂ : level₂.inSecond = true := hcont₂.inSecond
    have hfirst : level₂.first = level₁.first := hcont₂.first rfl
    have htotal : level₂.total = f.residualCount c := by
      rw [Level.active, hin₁] at hcount₁
      rw [Level.active, hin₂, hactive₁] at hcount₂
      rw [Level.total, hfirst, Formula.residualCount,
        ← Finset.card_filter_add_card_filter_not (fun T => (v.lit true).holds (decide (v ∈ T)) = true)]
      refine congrArg₂ (· + ·) (hcount₁.trans (Nat.one_mul _)) (hcount₂.trans ((Nat.one_mul _).trans ?_))
      refine congrArg Finset.card (Finset.filter_congr fun T _ => ?_)
      rw [Lit.holds_iff, Lit.holds_iff]
      exact iff_of_eq (Bool.not_eq_true _).symm
    refine ⟨e₂, ?_, h₂, hr₂.trans hr₁⟩
    rw [← htotal]
    simp only [countComponent, component_iff.2 hc, hbranch, hok₁, hok₂, Except.mapError, bind, Except.bind, pure,
      Except.pure]

/-! ## Counting the formula -/

/-- The whole formula is counted from its root component. -/
theorem countRoot_spec {cs : List (List Lit)} (hcs : f.ListedIn cs) (h : e.Sound f)
    (ha : e.assignment = .empty f.varCount) {entry : Option Slot} (hitems : e.stack.items = [{ root f with entry }]) :
    ∃ e', e.countRoot cs = .ok ((models (Var.firstN f.varCount).toFinset f.clauses).card, e') := by
  have hb := f.block_firstN
  obtain ⟨hr, -, hconflict, hcons⟩ := Propagation.propagate_spec hb (f.settledOutside_firstN _) hcs
    (Propagation.reached_start hb)
  have hall : ((models (Var.firstN f.varCount).toFinset
        (f.pending (.empty f.varCount) (Var.firstN f.varCount).toFinset)).filter fun T =>
      Agrees (.empty f.varCount) (Var.firstN f.varCount).toFinset T) =
      models (Var.firstN f.varCount).toFinset f.clauses := by
    rw [models_congr _ Formula.mem_pending_firstN]
    refine Finset.filter_true_of_mem fun T _ v _ b hv => ?_
    rw [Assignment.varValue_empty] at hv
    cases hv
  rw [hall] at hconflict hcons
  generalize hp : (Assignment.empty f.varCount).propagate cs [] = p at hr hconflict hcons
  rcases hcase : p.consistent with _ | _
  · refine ⟨{ e with assignment := p.assignment }, ?_⟩
    rw [hconflict hcase]
    simp [countRoot, ha, hp, hcase, pure, Except.pure]
  · obtain ⟨hsettled, hcard⟩ := hcons hcase
    have h₁ : Sound { e with assignment := p.assignment } f :=
      h.setAssignment (hr.varCount.trans (congrArg Assignment.varCount ha.symm))
    have hcount : p.assignment.varCount = f.varCount := h₁.loaded.assignment
    have hroot : e.stack.items[0]? = some { root f with entry } := by rw [hitems]; rfl
    have hlevel : rootLevel { e with assignment := p.assignment } = .ok (.new 0 1) := by
      simp [rootLevel, ComponentStack.isEmpty, hitems]
    have hopen : (Component.openVars { root f with entry } p.assignment).card < f.varCount + 1 := by
      refine Nat.lt_succ_of_le ((Finset.card_filter_le ..).trans ((List.toFinset_card_le _).trans ?_))
      exact (Var.length_firstN f.varCount).le
    obtain ⟨e', level', hok, -, -, -, hcont, htotal⟩ := countLevel_spec (countComponent_solves hcs (f.varCount + 1)) h₁
      hsettled (.new 0 1) (component_iff.2 hroot) ((Component.owns_root f _).setEntry entry)
      (by simp [ComponentStack.size, hitems, Level.new]) hopen Branch.sane_default
    have hsecond : level'.second = {} := hcont.second rfl
    have hfirst : level'.first = level'.active := by
      rw [Level.active, hcont.inSecond]
      rfl
    have hcounted : level'.total = (models (Var.firstN f.varCount).toFinset f.clauses).card := by
      rw [Level.total, hsecond, hfirst, htotal, hcard]
      exact (Nat.add_zero _).trans (Nat.one_mul _)
    refine ⟨e', ?_⟩
    rw [← hcounted]
    simp only [countRoot, ha, hp, hcase, if_true, hlevel, varCount, hcount, Except.mapError, bind, Except.bind, pure,
      Except.pure]
    simp only [varCount, hcount] at hok
    rw [hok]

end Engine

/-! ## Counters -/

namespace Counter

open Engine

/-- The counter was loaded with the formula and has counted nothing; it may have been configured since. -/
structure Holds (c : Counter) (f : Cnf) : Prop where
  sound : c.engine.Sound (.ofCnf f)
  assignment : c.engine.assignment = .empty (Formula.ofCnf f).varCount
  stack : ∃ entry, c.engine.stack.items = [{ root (.ofCnf f) with entry }]
  clauses : c.clauses = f.distinctClauses
  hasEmpty : c.hasEmpty = (Formula.ofCnf f).hasEmpty

variable {f : Cnf} {c : Counter}

theorem ofCnf_holds {e : Engine} (h : ofCnf e f = .ok c) : c.Holds f := by
  simp only [ofCnf, bind_eq_ok] at h
  obtain ⟨e', hload, h⟩ := h
  cases h
  obtain ⟨-, ha, -, entry, hitems, -⟩ := load_eq_ok hload
  exact ⟨load_sound hload, ha, ⟨entry, hitems⟩, rfl, rfl⟩

theorem Holds.configure (h : c.Holds f) (u : ConfigUpdate) : (c.configure u).Holds f :=
  ⟨h.sound.configure u, h.assignment, h.stack, h.clauses, h.hasEmpty⟩

theorem Holds.configureAll : ∀ (us : List ConfigUpdate) {c : Counter}, c.Holds f →
    (us.foldl Counter.configure c).Holds f
  | [], _, h => h
  | u :: us, _, h => configureAll us (h.configure u)

theorem Holds.count_isOk (h : c.Holds f) : ∃ c', c.count = .ok (f.modelCount, c') := by
  obtain ⟨entry, hitems⟩ := h.stack
  by_cases hempty : [] ∈ f.distinctClauses
  · refine ⟨c, ?_⟩
    have hflag : c.hasEmpty = true := h.hasEmpty.trans (Formula.hasEmpty_ofCnf.2 hempty)
    rw [Cnf.modelCount_of_mem_nil hempty]
    simp [count, hflag, pure, Except.pure]
  · have hflag : c.hasEmpty = false := by
      rw [h.hasEmpty, ← Bool.not_eq_true]
      exact mt Formula.hasEmpty_ofCnf.1 hempty
    obtain ⟨e', hcount⟩ := countRoot_spec (Formula.listedIn_distinctClauses hempty) h.sound h.assignment hitems
    refine ⟨{ c with engine := e' }, ?_⟩
    rw [Cnf.modelCount_eq hempty, ← Formula.varCount_ofCnf]
    simp only [count, hflag, h.clauses, hcount, bind, Except.bind, pure, Except.pure, Bool.false_eq_true, if_false]

/-- Every formula that is loaded is counted: under any configuration, the counter returns the number of
the truth assignments that satisfy it, and enumeration returns the same number if it takes the formula. -/
theorem count_eq_modelCount {e : Engine} (h : ofCnf e f = .ok c) (us : List ConfigUpdate) :
    (∃ c', (us.foldl configure c).count = .ok (f.modelCount, c')) ∧
      (f.varCount ≤ Cnf.enumerationLimit → f.enumerate = .ok f.modelCount) :=
  ⟨((ofCnf_holds h).configureAll us).count_isOk, Cnf.enumerate_eq_ok⟩

/-- Seven variables, counted with caching switched off. -/
theorem count_eq_modelCount_twoParts :
    ∃ c, ofCnf .new .twoParts = .ok c ∧
      (∃ c', (c.configure { caching := some false }).count = .ok (Cnf.twoParts.modelCount, c')) ∧
      Cnf.twoParts.enumerate = .ok Cnf.twoParts.modelCount := by
  obtain ⟨e, hload⟩ := Engine.load_twoParts .new
  have h : ofCnf .new .twoParts = .ok ⟨e, Cnf.twoParts.distinctClauses, (Formula.ofCnf .twoParts).hasEmpty⟩ := by
    simp only [ofCnf, hload, bind, Except.bind, pure, Except.pure]
  obtain ⟨hcount, henumerate⟩ := count_eq_modelCount h [{ caching := some false }]
  exact ⟨_, h, hcount, henumerate (by decide)⟩

end Counter

end ModelCount
