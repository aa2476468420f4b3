/-
The worklist at every moment of a search. It lists the seen variables, each once, and a scan that is undone cuts
it back to a length that all positions taken before lie within. So no more positions are taken than there are
variables that take part, and the search ends although the worklist grows and shrinks. Between two searches
nothing is seen, and no unseen clause leads back to a variable that is placed.
-/
import ModelCount.Proofs.Pass.Split
import ModelCount.Proofs.Pass.Steps

namespace ModelCount

namespace Pass

/-! ## The worklist and the marks -/

/-- The worklist lists the seen variables, each once, and only variables in `active` are not outside. -/
structure Tidy (active : List Var) (p : Pass) : Prop where
  nodup : p.worklist.toList.Nodup
  mem_iff : ∀ v, v ∈ p.worklist.toList ↔ p.varMark v = .seen
  inside : ∀ v, p.varMark v ≠ .outside → v ∈ active

section

variable {active : List Var} {p : Pass} {v : Var}

theorem Tidy.size_le (h : p.Tidy active) : p.worklist.size ≤ active.length := by
  have hsub : p.worklist.toList ⊆ active := by
    intro v hv
    refine h.inside v ?_
    rw [(h.mem_iff v).1 hv]
    simp
  simpa using (List.subperm_of_subset h.nodup hsub).length_le

theorem Tidy.raise (h : p.Tidy active) (v : Var) : (p.raise v).Tidy active := ⟨h.nodup, h.mem_iff, h.inside⟩

theorem Tidy.markClause (h : p.Tidy active) (c : ClauseId) (m : ClauseMark) : (p.markClause c m).Tidy active :=
  ⟨h.nodup, h.mem_iff, h.inside⟩

theorem Tidy.reach (h : p.Tidy active) (hv : p.varMark v = .unseen) : (p.reach v).Tidy active := by
  have hlt : v.index < p.vars.size := index_lt_of_varMark (by rw [hv]; simp)
  have hnot : v ∉ p.worklist.toList := by
    intro hmem
    rw [(h.mem_iff v).1 hmem] at hv
    cases hv
  constructor
  · rw [worklist_reach, Array.toList_push, ← List.concat_eq_append]
    exact h.nodup.concat hnot
  · intro w
    rw [worklist_reach, Array.toList_push, List.mem_append, List.mem_singleton, varMark_reach]
    by_cases hw : v = w
    · subst hw
      simp [hlt]
    · rw [if_neg fun hvw => hw hvw.1, h.mem_iff]
      simp [Ne.symm hw]
  · intro w hw
    by_cases hvw : v = w
    · subst hvw
      exact h.inside v (by rw [hv]; simp)
    · rw [varMark_reach, if_neg fun h' => hvw h'.1] at hw
      exact h.inside w hw

theorem Tidy.follow (h : p.Tidy active) (v w : Var) : (p.follow v w).Tidy active := by
  rw [Pass.follow]
  split
  · rename_i hw
    exact ((h.reach hw).raise v).raise w
  · exact h

theorem Tidy.meet (h : p.Tidy active) (v : Var) : (p.meet v).Tidy active := by
  simp only [Pass.meet]
  split
  · rename_i hv
    exact (h.raise v).reach hv
  · exact h.raise v

theorem prefix_follow (p : Pass) (v w : Var) : p.worklist.toList <+: (p.follow v w).worklist.toList := by
  rw [Pass.follow]
  split
  · rw [worklist_raise, worklist_raise, worklist_reach, Array.toList_push]
    exact List.prefix_append ..
  · exact List.prefix_refl _

/-! ## Undoing a scan -/

theorem worklist_undo (p : Pass) (scanned : List Lit) (len : Nat) :
    (p.undo scanned len).worklist.toList = p.worklist.toList.take len := by
  rw [undo_eq, unreach, (lowerAll_keeps scanned p).2]
  simp

theorem varMark_undo {p : Pass} (hlt : ∀ w ∈ p.worklist.toList, w.index < p.vars.size) (scanned : List Lit) (len : Nat)
    (v : Var) :
    (p.undo scanned len).varMark v = if v ∈ p.worklist.toList.drop len then .unseen else p.varMark v := by
  obtain ⟨hvars, hlist⟩ := lowerAll_keeps scanned p
  rw [undo_eq, unreach, varMark, hvars, hlist]
  by_cases hv : v.index < p.vars.size
  · rw [get_unsee _ hv]
    simp only [Var.index_inj, exists_eq_right]
    rfl
  · -- Beyond the range every mark is the default one, before and after, and nothing there is listed.
    have hnot : v ∉ p.worklist.toList.drop len := fun hmem => hv (hlt v (List.mem_of_mem_drop hmem))
    have hle := Nat.le_of_not_lt hv
    rw [if_neg hnot, varMark, Table.get_of_size_le _ hle, Table.get_of_size_le _ (by rw [size_unsee]; exact hle)]

/-- What is cut off the worklist is exactly what becomes unseen again, since nothing is listed twice. -/
theorem Tidy.undo (h : p.Tidy active) (scanned : List Lit) (len : Nat) : (p.undo scanned len).Tidy active := by
  have hmark := varMark_undo
    (fun w (hw : w ∈ p.worklist.toList) => index_lt_of_varMark (by rw [(h.mem_iff w).1 hw]; simp)) scanned len
  have hsplit := List.take_append_drop len p.worklist.toList
  constructor
  · rw [worklist_undo]
    exact (List.take_sublist ..).nodup h.nodup
  · intro v
    rw [worklist_undo, hmark]
    have hmem : v ∈ p.worklist.toList ↔ v ∈ p.worklist.toList.take len ∨ v ∈ p.worklist.toList.drop len := by
      rw [← List.mem_append, hsplit]
    have hnd : (p.worklist.toList.take len ++ p.worklist.toList.drop len).Nodup := by
      rw [hsplit]
      exact h.nodup
    split
    · rename_i hdrop
      refine iff_of_false (fun htake => ?_) (by simp)
      exact (List.disjoint_of_nodup_append hnd) htake hdrop
    · rename_i hdrop
      rw [← h.mem_iff, hmem]
      simp [hdrop]
  · intro v hv
    rw [hmark] at hv
    split at hv
    · rename_i hdrop
      refine h.inside v ?_
      rw [(h.mem_iff v).1 (List.mem_of_mem_drop hdrop)]
      simp
    · exact h.inside v hv

end

/-! ## One search -/

namespace Moment

variable {active : List Var} {adj : Adjacency} {a : Assignment}

/-- What holds at every moment of a search over variables in `active`. -/
structure Sound (active : List Var) (m : Moment) : Prop where
  tidy : m.pass.Tidy active
  position_le : m.position ≤ m.pass.worklist.size
  rollback : ∀ len, m.point.rollback? = some len → m.position ≤ len ∧ len ≤ m.pass.worklist.size

/-- There are no more iterations than variables that take part. -/
theorem Sound.position_le_length {m : Moment} (h : m.Sound active) : m.position ≤ active.length :=
  h.position_le.trans h.tidy.size_le

/-- A step that only appends to the worklist. -/
theorem Sound.appends {p q : Pass} {n : Nat} {point : Point} (h : Sound active ⟨p, n, point⟩) (hq : q.Tidy active)
    (hgrows : p.worklist.toList <+: q.worklist.toList) {point' : Point}
    (hpoint : ∀ len, point'.rollback? = some len → n ≤ len ∧ len ≤ p.worklist.size) :
    Sound active ⟨q, n, point'⟩ ∧ processed ⟨p, n, point⟩ <+: q.worklist.toList := by
  have hle : p.worklist.size ≤ q.worklist.size := by simpa using hgrows.length_le
  constructor
  · exact ⟨hq, h.position_le.trans hle, fun len hlen => ⟨(hpoint len hlen).1, (hpoint len hlen).2.trans hle⟩⟩
  · exact (List.take_prefix ..).trans hgrows

/-- Undoing a scan cuts off nothing that was processed. -/
theorem Sound.undo {p : Pass} {n : Nat} {v : Var} {cs : List ClauseId} {c : ClauseId} {len : Nat}
    {scanned lits : List Lit} {whole : Bool} (h : Sound active ⟨p, n, .scan v cs c len scanned whole lits⟩) :
    Sound active ⟨(p.undo scanned len).markClause c .outside, n, .clauses v cs⟩ ∧
      p.worklist.toList.take n <+: (p.undo scanned len).worklist.toList := by
  obtain ⟨hn, hlen⟩ : n ≤ len ∧ len ≤ p.worklist.size := h.rollback len rfl
  have hcut := worklist_undo p scanned len
  have hsize : (p.undo scanned len).worklist.size = len := by
    rw [← Array.length_toList, hcut, List.length_take, Array.length_toList]
    omega
  constructor
  · exact ⟨(h.tidy.undo scanned len).markClause c _, hn.trans_eq hsize.symm, nofun⟩
  · rw [hcut]
    exact List.take_prefix_take_left hn

/-- A step keeps what holds, and leaves the positions that were taken as they are. -/
theorem Sound.step {m m' : Moment} (h : m.Sound active) (hstep : m.step adj a = .next m') :
    m'.Sound active ∧ m.processed <+: m'.pass.worklist.toList := by
  cases moves_of_step hstep with
  | take hv => exact ⟨⟨h.tidy, (Array.getElem?_eq_some_iff.1 hv).1, nofun⟩, List.take_prefix ..⟩
  | link => exact h.appends (h.tidy.follow _ _) (prefix_follow ..) nofun
  | linksDone => exact h.appends h.tidy (List.prefix_refl _) nofun
  | skip => exact h.appends h.tidy (List.prefix_refl _) nofun
  | watched => exact h.appends (h.tidy.markClause _ _) (List.prefix_refl _) nofun
  | scan =>
    -- The scan may be cut back to the length that the worklist has now.
    refine h.appends h.tidy (List.prefix_refl _) fun len hlen => ?_
    cases hlen
    exact ⟨h.position_le, Nat.le_refl _⟩
  | clausesDone => exact h.appends h.tidy (List.prefix_refl _) nofun
  | meet => exact h.appends (h.tidy.meet _) (prefix_meet ..) h.rollback
  | passBy => exact h.appends h.tidy (List.prefix_refl _) h.rollback
  | undo => exact h.undo
  | scanDone => exact h.appends ((h.tidy.markClause _ _).raise _) (List.prefix_refl _) nofun

theorem Sound.reaches {m m' : Moment} (h : m.Sound active) (hr : Reaches adj a m m') : m'.Sound active := by
  induction hr with
  | refl => exact h
  | tail _ hstep ih => exact (ih.step hstep).1

/-- The search begins: the seed is unseen, and nothing else is seen. -/
theorem sound_start {p : Pass} {seed : Var} (hseed : p.varMark seed = .unseen) (hseen : ∀ v, p.varMark v ≠ .seen)
    (hinside : ∀ v, p.varMark v ≠ .outside → v ∈ active) :
    (start p seed).Sound active := by
  have hempty : Tidy active { p with worklist := #[] } := by
    refine ⟨List.nodup_nil, fun v => ?_, hinside⟩
    exact iff_of_false List.not_mem_nil (hseen v)
  exact ⟨hempty.reach hseed, Nat.zero_le _, nofun⟩

/-- The search ends when its positions are used up, and it never lacks fuel. -/
theorem reaches_spread (adj : Adjacency) (a : Assignment) : ∀ (fuel : Nat) {n : Nat} {p : Pass},
    Sound active ⟨p, n, .worklist⟩ → active.length < fuel + n → ∃ n',
      Reaches adj a ⟨p, n, .worklist⟩ ⟨p.spread adj a fuel n, n', .worklist⟩ ∧
      step adj a ⟨p.spread adj a fuel n, n', .worklist⟩ = .ended
  | 0, n, p, hs, hfuel => by
    -- Every iteration gives up one unit of fuel for one position, so the two together stay too large for this.
    have hle : n ≤ active.length := hs.position_le_length
    omega
  | fuel + 1, n, p, hs, hfuel => by
    rw [spread]
    cases hv : p.worklist[n]? with
    | none => exact ⟨n, .refl _, step_worklist_ended.2 (Array.getElem?_eq_none_iff.1 hv)⟩
    | some v =>
      have hvisit : Reaches adj a ⟨p, n, .worklist⟩ ⟨p.visit adj a v, n + 1, .worklist⟩ := reaches_visit hv
      obtain ⟨n', hr, hended⟩ := reaches_spread adj a fuel (hs.reaches hvisit) (by omega)
      exact ⟨n', hvisit.trans hr, hended⟩

/-- A search from an unseen variable comes to its end, in the state that the search leaves, after as many
iterations as the worklist is long. -/
theorem reaches_search (adj : Adjacency) (a : Assignment) {p : Pass} {seed : Var}
    (hs : (start p seed).Sound active) (hsize : active.length ≤ p.vars.size) :
    ∃ final, Reaches adj a (start p seed) final ∧ final.step adj a = .ended ∧ final.pass = p.search adj a seed ∧
      final.position = final.pass.worklist.size := by
  have hfuel : active.length < ((start p seed).pass.vars.size + 1) + 0 := by
    have hreach : (start p seed).pass.vars.size = p.vars.size := Table.size_set ..
    omega
  obtain ⟨n, hr, hended⟩ := reaches_spread adj a _ hs hfuel
  refine ⟨_, hr, hended, rfl, ?_⟩
  exact Nat.le_antisymm (hs.reaches hr).position_le (step_worklist_ended.1 hended)

end Moment

end Pass

end ModelCount
