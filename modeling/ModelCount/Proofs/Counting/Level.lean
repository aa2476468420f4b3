/-
Counting a level. A solver that counts components of fewer variables makes a level count the models of
what the assignment leaves of its super-component: the first step decomposes it, and every further step
counts one of the components that the decomposition left on the stack.
-/
import ModelCount.Counting.Decomposed
import ModelCount.Proofs.Counting.Parts
import ModelCount.Proofs.Engine.Run
import ModelCount.Proofs.Level

namespace ModelCount

namespace Engine

variable {f : Formula} {e e' : Engine}

/-- The engine has the stack and the assignment of another one. -/
structure Restores (e' e : Engine) : Prop where
  stack : e'.stack = e.stack
  assignment : e'.assignment = e.assignment

theorem Restores.refl (e : Engine) : e.Restores e := ⟨rfl, rfl⟩

theorem Restores.trans {e'' : Engine} (h' : e''.Restores e') (h : e'.Restores e) : e''.Restores e :=
  ⟨h'.stack.trans h.stack, h'.assignment.trans h.assignment⟩

/-- The solver returns the residual count of every component of fewer than `size` variables that a
settled assignment leaves, and puts the engine back. -/
def Solves (f : Formula) (solve : Engine → Nat → Except CountError (Nat × Engine)) (size : Nat) : Prop :=
  ∀ {e : Engine} {index : Nat} {c : Component}, e.Sound f → f.Settled e.assignment →
    e.stack.items[index]? = some c → c.Fresh f e.assignment → c.vars ≠ [] → c.vars.length < size →
    ∃ e', solve e index = .ok (f.residualCount c, e') ∧ e'.Sound f ∧ e'.Restores e

/-! ## Single steps -/

theorem storeCount_isOk {index : Nat} {c : Component} (hc : e.stack.items[index]? = some c) (n : Nat) :
    ∃ e', e.storeCount index n = .ok e' ∧ e'.Restores e := by
  simp only [storeCount, live_iff.2 hc, bind, Except.bind]
  split
  · split
    · exact ⟨_, rfl, rfl, rfl⟩
    · exact ⟨e, rfl, .refl e⟩
  · exact ⟨e, rfl, .refl e⟩

variable {solve : Engine → Nat → Except CountError (Nat × Engine)} {size steps : Nat}

theorem countLevel_done {level level' : Level} (h : e.nextComponent level = .ok (false, e', level')) :
    countLevel solve (steps + 1) e level = .ok (e', level') := by
  simp only [countLevel, h, Except.mapError, bind, Except.bind, pure, Except.pure]

theorem countLevel_next {e₁ e₂ e₃ : Engine} {level level₁ : Level} {n : Nat}
    (h : e.nextComponent level = .ok (true, e₁, level₁)) (hs : solve e₁ level₁.current = .ok (n, e₂))
    (hstore : e₂.storeCount level₁.current n = .ok e₃) :
    countLevel solve (steps + 1) e level = countLevel solve steps e₃ (level₁.times n).next := by
  simp only [countLevel, h, hs, hstore, Except.mapError, bind, Except.bind]

/-- The first step tells how a level goes on. -/
theorem countLevel_congr {level level' : Level} (h : e.nextComponent level = e'.nextComponent level') :
    countLevel solve (steps + 1) e level = countLevel solve (steps + 1) e' level' := by
  simp only [countLevel, h]

/-! ## What a decomposition leaves to be counted -/

/-- A pass finds at most as many components as there are variables. -/
theorem length_found_le {a : Assignment} {super : Component} {s : Split} (hd : s.Decomposes f a super)
    (hfit : super.Within f) : s.found.length ≤ f.varCount := by
  have hvars : s.found.length ≤ (s.found.flatMap fun fd => fd.component.vars).length := by
    rw [List.length_flatMap]
    refine (List.length_map (fun fd : Found => fd.component.vars.length)).symm.le.trans
      (List.length_le_sum_of_one_le _ fun n hn => ?_)
    obtain ⟨fd, hfd, rfl⟩ := List.mem_map.1 hn
    exact (Nat.le_succ 1).trans (hd.found fd hfd).two_le
  have hperm := hd.vars_perm.length_eq
  rw [Split.vars, List.length_append] at hperm
  have hsuper : super.vars.length ≤ (Var.firstN f.varCount).length :=
    (List.subperm_of_subset hfit.nodup_vars fun v hv => Var.mem_firstN.2 (hfit.var_id_le v hv)).length_le
  rw [Var.length_firstN] at hsuper
  have := List.length_filter_le a.isActive super.vars
  omega

/-- A component that a pass finds has its variables among the unassigned ones. -/
theorem length_vars_le {a : Assignment} {super : Component} {fd : Found} (hs : fd.Splits f a super)
    (hfit : super.Within f) : fd.component.vars.length ≤ (super.openVars a).card := by
  rw [← List.toFinset_card_of_nodup (hs.vars_sublist.nodup hfit.nodup_vars)]
  exact Finset.card_le_card fun v hv => Component.mem_openVars.2 (hs.takesPart v (List.mem_toFinset.1 hv))

section

variable {level level' : Level} {super : Component} {kept : List (Found × Option Slot)} {hits : List (Found × Nat)}
  {block : List Component}

/-- The isolated variables and the counts of the cache are multiplied into the level. -/
theorem Decomposed.value_level (hd : Decomposed e level super kept hits e' level') (hsane : level.active.Sane) :
    level.Continues level' ∧ level'.active.Sane ∧ level'.active.value =
      level.active.value * 2 ^ (e.passOver super).isolated.length * (hits.map Prod.snd).prod := by
  obtain ⟨hciso, hsiso, hviso⟩ := Level.timesAll_spec (fun _ : Var => 2) (e.passOver super).isolated level hsane
  obtain ⟨hchit, hshit, hvhit⟩ := Level.timesAll_spec (Prod.snd : Found × Nat → Nat) hits _ hsiso
  rw [hd.level]
  refine ⟨(hciso.trans hchit).trans (Level.continues_setEnd ..), hshit, ?_⟩
  rw [Level.active_setEnd, hvhit, hviso, List.map_const', List.prod_replicate]

/-- The components that a decomposition leaves are fresh, and they have no more variables than there are
unassigned ones. -/
theorem Sound.fresh_block (h : e.Sound f) (hsettled : f.Settled e.assignment) (hmem : super ∈ e.stack.items)
    (howns : super.Owns f e.assignment) (hd : Decomposed e level super kept hits e' level')
    (hperm : block.Perm (kept.map fun k => { k.1.component with entry := k.2 })) :
    ∀ c ∈ block, c.Fresh f e.assignment ∧ c.vars ≠ [] ∧ c.vars.length ≤ (super.openVars e.assignment).card := by
  intro c hc
  obtain ⟨k, hk, rfl⟩ := List.mem_map.1 (hperm.mem_iff.1 hc)
  have hfit := h.within hmem
  have hsplits := (h.loaded.passOver_decomposes hfit).found k.1
    (hd.perm.mem_iff.1 (List.mem_append_left _ (List.mem_map_of_mem hk)))
  exact ⟨(hsplits.fresh howns hsettled).setEntry k.2, List.ne_nil_of_length_pos (Nat.zero_lt_of_lt hsplits.two_le),
    length_vars_le hsplits hfit⟩

theorem Sound.length_block_le (h : e.Sound f) (hmem : super ∈ e.stack.items)
    (hd : Decomposed e level super kept hits e' level')
    (hperm : block.Perm (kept.map fun k => { k.1.component with entry := k.2 })) : block.length ≤ f.varCount := by
  have hfound := length_found_le (h.loaded.passOver_decomposes (h.within hmem)) (h.within hmem)
  have hlen := hd.perm.length_eq
  have hblock := hperm.length_eq
  rw [List.length_append, List.length_map] at hlen
  rw [List.length_map] at hblock
  omega

/-- What was multiplied into the level, times the residual counts of the components that are left, is the
number of models of what the assignment leaves of the super-component. -/
theorem Sound.value_mul_block (h : e.Sound f) (hsettled : f.Settled e.assignment) (hmem : super ∈ e.stack.items)
    (howns : super.Owns f e.assignment) (hd : Decomposed e level super kept hits e' level') (hsane : level.active.Sane)
    (hperm : block.Perm (kept.map fun k => { k.1.component with entry := k.2 })) :
    level'.active.value * (block.map f.residualCount).prod = level.active.value *
      (models (super.openVars e.assignment) (f.pending e.assignment (super.openVars e.assignment))).card := by
  have hkept : (block.map f.residualCount).prod = (kept.map fun k => f.residualCount k.1.component).prod := by
    rw [(hperm.map f.residualCount).prod_eq, List.map_map]
    exact congrArg List.prod (List.map_congr_left fun k _ => (Formula.residual_congr rfl rfl).2)
  have hhits : hits.map Prod.snd = (hits.map Prod.fst).map fun fd => f.residualCount fd.component := by
    rw [List.map_map]
    exact List.map_congr_left fun hit hhit => h.answered hmem hd hit hhit
  have hfound := (hd.perm.map fun fd => f.residualCount fd.component).prod_eq
  rw [List.map_append, List.prod_append, ← hhits, List.map_map] at hfound
  rw [(h.loaded.passOver_decomposes (h.within hmem)).card_models howns hsettled h.loaded.assignment, ← hfound,
    (hd.value_level hsane).2.2, hkept]
  simp only [Function.comp_def]
  ring

end

/-! ## Counting a level -/

/-- The components of a level that are left on the stack are counted from the top, and their counts
multiply. -/
theorem countLevel_block (hsolve : Solves f solve size) {a : Assignment} (hsettled : f.Settled a)
    {below block : List Component} (hne : block ≠ [])
    (hblock : ∀ c ∈ block, c.Fresh f a ∧ c.vars ≠ [] ∧ c.vars.length < size) {super : Component} :
    ∀ (j : Nat) {steps : Nat} {e : Engine} {level : Level}, j < steps → j ≤ block.length → e.Sound f →
      e.assignment = a → e.stack.items = below ++ block → e.superComponent level = .ok super →
      level.offset = below.length → level.unprocessedEnd = below.length + j → level.active.Sane →
      ∃ e' level', countLevel solve steps e level = .ok (e', level') ∧ e'.Sound f ∧ e'.Restores e ∧
        level.Continues level' ∧
        level'.active.count = level.active.value * ((block.take j).map f.residualCount).prod := by
  intro j
  induction j with
  | zero =>
    intro steps e level hsteps _ h ha hitems hsuper hoffset hend hsane
    obtain ⟨steps, rfl⟩ := Nat.exists_eq_succ_of_ne_zero (Nat.ne_of_gt hsteps)
    have habove : level.offset < e.stack.size := by
      have := List.length_pos_iff.2 hne
      rw [ComponentStack.size, hitems, List.length_append]
      omega
    have hnone : level.hasUnprocessed = false := by
      simp [Level.hasUnprocessed, hoffset, hend]
    have hnext := nextComponent_of_above hsuper habove
    simp only [hnone] at hnext
    refine ⟨e, level.times 1, countLevel_done hnext, h, .refl e, level.continues_times 1, ?_⟩
    rw [Level.active_times, Branch.count_times_one hsane]
    simp
  | succ j ih =>
    intro steps e level hsteps hj h ha hitems hsuper hoffset hend hsane
    obtain ⟨steps, rfl⟩ := Nat.exists_eq_succ_of_ne_zero (Nat.ne_of_gt (Nat.zero_lt_of_lt hsteps))
    have habove : level.offset < e.stack.size := by
      rw [ComponentStack.size, hitems, List.length_append]
      omega
    have hsome : level.hasUnprocessed = true := by
      simp [Level.hasUnprocessed, hoffset, hend]
    have hnext := nextComponent_of_above hsuper habove
    simp only [hsome] at hnext
    have hcurrent : level.current = below.length + j := by simp [Level.current, hend]
    -- The component on top is solved, and its count stored.
    have hc : e.stack.items[level.current]? = some block[j] := by
      rw [hitems, hcurrent, List.getElem?_append_right (by omega)]
      simp [List.getElem?_eq_getElem hj]
    obtain ⟨hfresh, hvars, hsmall⟩ := hblock block[j] (List.getElem_mem hj)
    obtain ⟨e₂, hsolved, h₂, hr₂⟩ := hsolve h (ha ▸ hsettled) hc (ha ▸ hfresh) hvars hsmall
    have hc₂ : e₂.stack.items[level.current]? = some block[j] := by rw [hr₂.stack]; exact hc
    obtain ⟨e₃, hstore, hr₃⟩ := storeCount_isOk hc₂ (f.residualCount block[j])
    have h₃ := storeCount_sound h₂ (live_iff.2 hc₂) hstore
    have hr := hr₃.trans hr₂
    -- The others are counted in what is left of the level.
    have hsuper₃ : e₃.superComponent (level.times (f.residualCount block[j])).next = .ok super := by
      rw [superComponent, component_iff, hr.stack]
      rw [superComponent, component_iff] at hsuper
      rwa [← (level.continues_times _).superIndex] at hsuper
    obtain ⟨e', level', hok, h', hr', hcont, hcount⟩ := ih (by omega : j < steps) (by omega) h₃ (hr.assignment.trans ha)
      (by rw [hr.stack, hitems]) hsuper₃ ((level.continues_times _).offset.trans hoffset)
      (by simp [Level.next, Level.unprocessedEnd_times, hend]) (by simpa using Branch.sane_times hsane _)
    refine ⟨e', level', (countLevel_next hnext hsolved hstore).trans hok, h', hr'.trans hr,
      ((level.continues_times _).trans (Level.continues_next _)).trans hcont, ?_⟩
    rw [hcount, Level.active_next, Level.active_times, Branch.value_times, ← List.take_concat_get' _ _ hj,
      List.map_append, List.prod_append, Nat.mul_assoc, Nat.mul_comm (f.residualCount block[j])]
    simp

/-- A level that is begun counts the models of what a settled assignment leaves of its super-component. -/
theorem countLevel_spec (hsolve : Solves f solve size) (h : e.Sound f) (hsettled : f.Settled e.assignment)
    (level : Level) {super : Component} (hsuper : e.superComponent level = .ok super)
    (howns : super.Owns f e.assignment) (hoffset : level.offset = e.stack.size)
    (hsize : (super.openVars e.assignment).card < size) (hsane : level.active.Sane) :
    ∃ e' level', countLevel solve (e.varCount + 1) e level = .ok (e', level') ∧ e'.Sound f ∧
      e'.assignment = e.assignment ∧ (∃ block, e'.stack.items = e.stack.items ++ block) ∧ level.Continues level' ∧
      level'.active.count = level.active.value *
        (models (super.openVars e.assignment) (f.pending e.assignment (super.openVars e.assignment))).card := by
  have hmem := superComponent_eq_ok hsuper
  obtain ⟨e₁, level₁, kept, hits, hdecompose, hd⟩ := decompose_isOk h.loaded hsuper (h.within hmem)
  have h₁ := decompose_sound h hdecompose
  have ha : e₁.assignment = e.assignment := by rw [hd.frame]
  obtain ⟨block, hitems, hperm, -⟩ := hd.stack
  obtain ⟨hcont, hsane₁, -⟩ := hd.value_level hsane
  have hvalue := h.value_mul_block hsettled hmem howns hd hsane hperm
  have hoffset₁ : level₁.offset = e.stack.items.length := hcont.offset.trans hoffset
  have hend : level₁.unprocessedEnd = e.stack.items.length + block.length := by
    rw [hd.level]
    simp [Level.setEnd, ComponentStack.size, hitems]
  have hnext := nextComponent_of_below hsuper hoffset.ge hdecompose
  by_cases hne : block = []
  · -- Everything was answered, and the level is done.
    have hnone : level₁.hasUnprocessed = false := by simp [Level.hasUnprocessed, hoffset₁, hend, hne]
    simp only [hnone] at hnext
    refine ⟨e₁, level₁.times 1, countLevel_done hnext, h₁, ha, ⟨block, hitems⟩,
      hcont.trans (level₁.continues_times 1), ?_⟩
    rw [Level.active_times, Branch.count_times_one hsane₁, ← hvalue, hne]
    simp
  · -- The first step is the one of a level whose components are on the stack already.
    have hpos := List.length_pos_iff.2 hne
    have hsome : level₁.hasUnprocessed = true := by
      simp [Level.hasUnprocessed, hoffset₁, hend, hpos]
    simp only [hsome] at hnext
    have hsuper₁ : e₁.superComponent level₁ = .ok super := by
      rw [superComponent, component_iff] at hsuper ⊢
      rw [hcont.superIndex, hitems, List.getElem?_append_left (List.getElem?_eq_some_iff.1 hsuper).1]
      exact hsuper
    have habove : level₁.offset < e₁.stack.size := by
      rw [ComponentStack.size, hitems, List.length_append]
      omega
    have hcongr : e.nextComponent level = e₁.nextComponent level₁ := by
      rw [nextComponent_of_above hsuper₁ habove, hsome]
      exact hnext
    have hparts : ∀ c ∈ block, c.Fresh f e.assignment ∧ c.vars ≠ [] ∧ c.vars.length < size := fun c hc => by
      obtain ⟨hfresh, hvars, hlen⟩ := h.fresh_block hsettled hmem howns hd hperm c hc
      exact ⟨hfresh, hvars, hlen.trans_lt hsize⟩
    have hsteps : block.length < e.varCount + 1 :=
      Nat.lt_succ_of_le ((h.length_block_le hmem hd hperm).trans h.loaded.assignment.ge)
    obtain ⟨e', level', hok, h', hr', hcont', hcount⟩ := countLevel_block hsolve hsettled hne hparts block.length hsteps
      le_rfl h₁ ha hitems hsuper₁ hoffset₁ hend hsane₁
    refine ⟨e', level', (countLevel_congr hcongr).trans hok, h', hr'.assignment.trans ha,
      ⟨block, by rw [hr'.stack, hitems]⟩, hcont.trans hcont', ?_⟩
    rw [hcount, List.take_length, hvalue]

end Engine

end ModelCount
