/-
What an engine is asked for, with any arguments and in any order. After a formula was loaded whose ids and
links fit their words, a request is refused only by the check it begins with: of a variable, of a position
on the stack, or that there is a component at all. Nothing goes wrong later on. Every component that a pass
finds has a key, so no pass stops halfway, and no access goes beyond its range.
-/
import ModelCount.Proofs.Engine.Entries
import ModelCount.Proofs.Engine.InBounds

namespace ModelCount

namespace Engine

/-! ## Requests -/

/-- What an engine may be asked for. Only the formulas to be loaded are restricted. -/
inductive Request
  | load (f : Formula) (accepted : f.Accepted)
  | configure (u : ConfigUpdate)
  | assign (l : Lit)
  | unassign (v : Var)
  | value (l : Lit)
  | score (v : Var)
  | rootLevel
  | component (index : Nat)
  | superComponent (level : Level)
  | currentComponent (level : Level)
  | beginPass (level : Level)
  | nextComponent (level : Level)
  | decompose (level : Level)
  | release (level : Level)
  | storeCount (index n : Nat)

inductive Answer
  | done
  | value (value : Option Bool)
  | score (n : Nat)
  | component (c : Component)
  | level (level : Level)
  | next (found : Bool) (level : Level)
  deriving DecidableEq, Repr

/-- Answers a request, or refuses it. -/
def perform (e : Engine) : Request → Except EngineError (Answer × Engine)
  | .load f _ => return (.done, ← e.load f)
  | .configure u => return (.done, e.configure u)
  | .assign l => return (.done, ← e.assign l)
  | .unassign v => return (.done, ← e.unassign v)
  | .value l => return (.value (← e.value l), e)
  | .score v => return (.score (← e.score v), e)
  | .rootLevel => return (.level (← e.rootLevel), e)
  | .component index => return (.component (← e.component index), e)
  | .superComponent level => return (.component (← e.superComponent level), e)
  | .currentComponent level => return (.component (← e.currentComponent level), e)
  | .beginPass level => return (.done, ← e.beginPass level)
  | .nextComponent level => do
    let (found, e, level) ← e.nextComponent level
    return (.next found level, e)
  | .decompose level => do
    let (e, level) ← e.decompose level
    return (.level level, e)
  | .release level => return (.done, e.release level)
  | .storeCount index n => return (.done, ← e.storeCount index n)

/-- Answers a request with checked accesses. -/
def perform? (e : Engine) : Request → Checked EngineError (Answer × Engine)
  | .load f _ => return (.done, ← e.load? f)
  | .configure u => return (.done, ← e.configure? u)
  | .assign l => return (.done, ← e.assign? l)
  | .unassign v => return (.done, ← e.unassign? v)
  | .value l => return (.value (← e.value? l), e)
  | .score v => return (.score (← e.score? v), e)
  | .rootLevel => return (.level (← e.rootLevel), e)
  | .component index => return (.component (← e.component index), e)
  | .superComponent level => return (.component (← e.superComponent level), e)
  | .currentComponent level => return (.component (← e.currentComponent level), e)
  | .beginPass level => return (.done, ← e.beginPass? level)
  | .nextComponent level => do
    let (found, e, level) ← e.nextComponent? level
    return (.next found level, e)
  | .decompose level => do
    let (e, level) ← e.decompose? level
    return (.level level, e)
  | .release level => return (.done, ← e.release? level)
  | .storeCount index n => return (.done, ← e.storeCount index n)

/-- A refused request leaves the engine as it is. -/
def after (e : Engine) (r : Request) : Engine :=
  match e.perform r with
  | .ok (_, e') => e'
  | .error _ => e

def serve (e : Engine) (rs : List Request) : Engine := rs.foldl after e

/-- The formula that is loaded after a request. -/
def Request.loaded (f : Formula) : Request → Formula
  | .load g _ => g
  | _ => f

/-! ## Refusals -/

section

variable (e : Engine)

def refuseVar (v : Var) : Option EngineError :=
  if v.id ≤ e.varCount then none else some (.variableOutOfRange v.id e.varCount)

def refusePosition (index : Nat) : Option EngineError :=
  if index < e.stack.size then none else some (.componentOutOfRange index e.stack.size)

def refuseComponent (index : Nat) : Option EngineError :=
  if e.stack.isEmpty then some .notInitialized else e.refusePosition index

/-- Why a request is refused, as told from the variables and the size of the stack. -/
def refusal : Request → Option EngineError
  | .assign l | .value l => e.refuseVar l.var
  | .unassign v | .score v => e.refuseVar v
  | .rootLevel => if e.stack.isEmpty then some .notInitialized else none
  | .component index => e.refuseComponent index
  | .superComponent level | .beginPass level | .nextComponent level | .decompose level =>
    e.refuseComponent level.superIndex
  | .currentComponent level =>
    if level.hasUnprocessed then e.refuseComponent level.current
    else some (.componentOutOfRange level.unprocessedEnd e.stack.size)
  | .storeCount index _ => e.refusePosition index
  | .load .. | .configure _ | .release _ => none

end

section

variable {e : Engine} {err : EngineError}

theorem refuseVar_eq_some {v : Var} :
    e.refuseVar v = some err ↔ err = .variableOutOfRange v.id e.varCount ∧ e.varCount < v.id := by
  rw [refuseVar, Option.ite_none_left_eq_some, Option.some.injEq, Nat.not_le, and_comm, eq_comm]

theorem refusePosition_eq_some {index : Nat} (h : e.refusePosition index = some err) :
    err = .componentOutOfRange index e.stack.size := by
  rw [refusePosition, Option.ite_none_left_eq_some] at h
  exact (Option.some.inj h.2).symm

theorem refuseComponent_eq_some {index : Nat} (h : e.refuseComponent index = some err) :
    err = .notInitialized ∧ e.stack.isEmpty ∨ err = .componentOutOfRange index e.stack.size := by
  unfold refuseComponent at h
  split at h
  · exact .inl ⟨(Option.some.inj h).symm, ‹_›⟩
  · exact .inr (refusePosition_eq_some h)

/-- The checks know three errors. -/
theorem refusal_kinds {r : Request} (h : e.refusal r = some err) :
    err = .notInitialized ∧ e.stack.isEmpty ∨
      (∃ v : Var, err = .variableOutOfRange v.id e.varCount ∧ e.varCount < v.id) ∨
      ∃ index, err = .componentOutOfRange index e.stack.size := by
  cases r with
  | assign l | value l => exact .inr (.inl ⟨l.var, refuseVar_eq_some.1 h⟩)
  | unassign v | score v => exact .inr (.inl ⟨v, refuseVar_eq_some.1 h⟩)
  | component index => exact (refuseComponent_eq_some h).imp_right fun h => .inr ⟨_, h⟩
  | superComponent level | beginPass level | nextComponent level | decompose level =>
    exact (refuseComponent_eq_some h).imp_right fun h => .inr ⟨_, h⟩
  | storeCount index n => exact .inr (.inr ⟨index, refusePosition_eq_some h⟩)
  | rootLevel =>
    change (if e.stack.isEmpty then some EngineError.notInitialized else none) = some err at h
    split at h <;> cases h
    exact .inl ⟨rfl, ‹_›⟩
  | currentComponent level =>
    change (if level.hasUnprocessed then e.refuseComponent level.current else some _) = some err at h
    split at h
    · exact (refuseComponent_eq_some h).imp_right fun h => .inr ⟨_, h⟩
    · exact .inr (.inr ⟨level.unprocessedEnd, (Option.some.inj h).symm⟩)
  | load _ _ | configure _ | release _ => cases h

end

/-- The operation is refused with the given error, or it is not and succeeds. -/
def Refused {α : Type} (refusal : Option EngineError) (outcome : Except EngineError α) : Prop :=
  match refusal with
  | some err => outcome = .error err
  | none => ∃ a, outcome = .ok a

namespace Refused

variable {α β : Type} {refusal : Option EngineError} {x : Except EngineError α}

theorem error_iff (h : Refused refusal x) (err : EngineError) : x = .error err ↔ refusal = some err := by
  unfold Refused at h
  split at h
  · rw [h, Except.error.injEq, Option.some.injEq]
  · obtain ⟨a, rfl⟩ := h
    simp

/-- What comes after the check succeeds whenever the check does. -/
theorem bind (h : Refused refusal x) {k : α → Except EngineError β} (hk : ∀ a, x = .ok a → ∃ b, x >>= k = .ok b) :
    Refused refusal (x >>= k) := by
  unfold Refused at h ⊢
  split at h
  · rw [h]
    rfl
  · obtain ⟨a, ha⟩ := h
    exact hk a ha

theorem map (h : Refused refusal x) (g : α → β) : Refused refusal (x >>= fun a => pure (g a)) :=
  h.bind fun a ha => ⟨g a, by rw [ha]; rfl⟩

end Refused

variable {f : Formula} {e e' : Engine}

theorem refused_require (e : Engine) (v : Var) :
    Refused (e.refuseVar v) ((e.assignment.require v).mapError EngineError.ofOutOfRange) := by
  unfold refuseVar varCount Assignment.require
  by_cases h : v.id ≤ e.assignment.varCount
  · rw [if_pos h, if_pos (Var.index_lt_iff.2 h)]
    exact ⟨(), rfl⟩
  · rw [if_neg h, if_neg (mt Var.index_lt_iff.1 h)]
    rfl

/-- The operations on the assignment check the variable before anything else. -/
theorem refused_checked {α : Type} (e : Engine) (v : Var) (a : α) :
    Refused (e.refuseVar v) ((e.assignment.require v >>= fun _ => pure a).mapError EngineError.ofOutOfRange) := by
  have h := (e.refused_require v).map fun _ => a
  rcases hr : e.assignment.require v with err | _ <;> rw [hr] at h <;> exact h

theorem refused_assign (e : Engine) (l : Lit) : Refused (e.refuseVar l.var) (e.assign l) :=
  (e.refused_checked l.var (e.assignment.set l)).map fun assignment => ({ e with assignment } : Engine)

theorem refused_unassign (e : Engine) (v : Var) : Refused (e.refuseVar v) (e.unassign v) :=
  (e.refused_checked v (e.assignment.clear v)).map fun assignment => ({ e with assignment } : Engine)

theorem refused_value (e : Engine) (l : Lit) : Refused (e.refuseVar l.var) (e.value l) :=
  e.refused_checked l.var (e.assignment.litValue l)

theorem refused_score (e : Engine) (v : Var) : Refused (e.refuseVar v) (e.score v) :=
  (e.refused_require v).map fun _ => e.pass.score v

theorem refused_live (e : Engine) (index : Nat) : Refused (e.refusePosition index) (e.live index) := by
  unfold refusePosition live ComponentStack.get?
  by_cases h : index < e.stack.size
  · rw [if_pos h, List.getElem?_eq_getElem h]
    exact ⟨_, rfl⟩
  · rw [if_neg h, List.getElem?_eq_none (Nat.le_of_not_lt h)]
    rfl

theorem refused_component (e : Engine) (index : Nat) : Refused (e.refuseComponent index) (e.component index) := by
  unfold refuseComponent component
  split
  · rfl
  · exact e.refused_live index

theorem refused_rootLevel (e : Engine) : Refused (e.refusal .rootLevel) e.rootLevel := by
  unfold rootLevel
  show Refused (if e.stack.isEmpty then some .notInitialized else none) _
  split
  · rfl
  · exact ⟨_, rfl⟩

theorem refused_currentComponent (e : Engine) (level : Level) :
    Refused (e.refusal (.currentComponent level)) (e.currentComponent level) := by
  unfold currentComponent
  show Refused (if level.hasUnprocessed then e.refuseComponent level.current else some _) _
  split
  · exact e.refused_component level.current
  · rfl

theorem refused_beginPass (e : Engine) (level : Level) :
    Refused (e.refuseComponent level.superIndex) (e.beginPass level) :=
  (e.refused_component level.superIndex).map fun super => ({ e with pass := e.pass.begin e.assignment super } : Engine)

theorem Alive.refused_decompose (h : e.Alive f) (level : Level) :
    Refused (e.refuseComponent level.superIndex) (e.decompose level) :=
  (e.refused_component level.superIndex).bind fun super hsuper => by
    obtain ⟨e', level', _, _, hok, -⟩ := h.decompose_isOk hsuper
    exact ⟨(e', level'), hok⟩

theorem Alive.refused_nextComponent (h : e.Alive f) (level : Level) :
    Refused (e.refuseComponent level.superIndex) (e.nextComponent level) :=
  (e.refused_component level.superIndex).bind fun super hsuper => by
    by_cases hsize : e.stack.size ≤ level.offset
    · obtain ⟨e', level', _, _, hok, -⟩ := h.decompose_isOk hsuper
      exact ⟨_, nextComponent_of_below hsuper hsize hok⟩
    · exact ⟨_, nextComponent_of_above hsuper (Nat.lt_of_not_le hsize)⟩

theorem refused_storeCount (e : Engine) (index n : Nat) : Refused (e.refusePosition index) (e.storeCount index n) :=
  (e.refused_live index).bind fun c hc => by
    rw [hc]
    simp only [bind, Except.bind]
    split
    · split <;> exact ⟨_, rfl⟩
    · exact ⟨_, rfl⟩

/-! ## Requests to a loaded engine -/

/-- An accepted formula is loaded, and the cache lists slots that exist. -/
structure Serving (e : Engine) (f : Formula) : Prop extends e.Alive f where
  accepted : f.Accepted
  inRange : e.cache.InRange

theorem load_inRange {e₀ : Engine} (h : e₀.load f = .ok e) : e.cache.InRange := by
  simp only [load, bind_eq_ok] at h
  obtain ⟨adjacency, -, scheme, -, key, -, h⟩ := h
  have hnew := Cache.inRange_new scheme e₀.config
  split at h <;> cases h
  · exact hnew.store key none
  · exact hnew

theorem Call.inRange (hcall : Call e e') (h : e.cache.InRange) : e'.cache.InRange := by
  cases hcall with
  | configure u => exact h.setLimits (e.config.apply u)
  | assign ha =>
    rw [assign_eq_ok ha]
    exact h
  | unassign ha =>
    rw [unassign_eq_ok ha]
    exact h
  | beginPass hb =>
    obtain ⟨super, -, hb⟩ := bind_eq_ok.1 hb
    cases hb
    exact h
  | decompose hd => exact decompose_inRange h hd
  | nextComponent hn =>
    obtain ⟨level₁, -, -, ⟨-, rfl, -⟩ | ⟨-, hd⟩⟩ := nextComponent_cases hn
    · exact h
    · exact decompose_inRange h hd
  | storeCount hs =>
    rcases storeCount_eq_ok hs with rfl | ⟨c, s, -, -, rfl⟩
    · exact h
    · exact h.storeCount s _
  | release level =>
    exact List.foldlRecOn ((e.stack.items.drop level.offset).filterMap Component.entry) Cache.release
      (motive := Cache.InRange) h fun cache hcache s _ => hcache.release s

theorem Call.alive (hcall : Call e e') (h : e.Alive f) : e'.Alive f := by
  rcases hcall.cases_changes h with hchanges | ⟨level, rfl⟩
  · exact hchanges.alive h
  · exact h.release level

theorem Call.serving (hcall : Call e e') (h : e.Serving f) : e'.Serving f :=
  ⟨hcall.alive h.toAlive, h.accepted, hcall.inRange h.inRange⟩

/-- The ids of an accepted formula fit a word together, so there is a scheme for them and a key of the root. -/
theorem load_accepted (e₀ : Engine) (hf : f.Accepted) :
    ∃ key e, e₀.load f = .ok e ∧ PackingScheme.ofMax f.varCount f.longs.length = .ok e.cache.scheme ∧
      PackedKey.encode e.cache.scheme (root f) = .ok key ∧ e.Serving f := by
  obtain ⟨adj, hbuild⟩ := hf.build_isOk
  obtain ⟨⟨hlong, hbinary, -⟩, -⟩ := Adjacency.build_eq_ok_iff.1 hbuild
  have hids : f.varCount + f.longs.length < 2 ^ wordBits := by
    have hroom := Formula.scores_fit hbuild hf.varCount_le
    rw [wordSize, Nat.one_shiftLeft] at hroom
    omega
  obtain ⟨e, hload⟩ := e₀.load_isOk hlong hbinary hf.varCount_le (bitLength_le_of_lt hids)
  have halive := load_alive hload
  obtain ⟨key, hkey⟩ := halive.loaded.encode_isOk (within_root f)
  exact ⟨key, e, hload, halive.loaded.scheme, hkey, halive, hf, load_inRange hload⟩

namespace Serving

theorem refused (h : e.Serving f) (r : Request) : Refused (e.refusal r) (e.perform r) := by
  cases r with
  | load g hg =>
    obtain ⟨_, e', hload, -⟩ := load_accepted e hg
    exact ⟨(.done, e'), by rw [perform, hload]; rfl⟩
  | configure u => exact ⟨_, rfl⟩
  | assign l => exact (e.refused_assign l).map _
  | unassign v => exact (e.refused_unassign v).map _
  | value l => exact (e.refused_value l).map _
  | score v => exact (e.refused_score v).map _
  | rootLevel => exact e.refused_rootLevel.map _
  | component index => exact (e.refused_component index).map _
  | superComponent level => exact (e.refused_component level.superIndex).map _
  | currentComponent level => exact (e.refused_currentComponent level).map _
  | beginPass level => exact (e.refused_beginPass level).map _
  | nextComponent level => exact (h.refused_nextComponent level).map fun s => (Answer.next s.1 s.2.2, s.2.1)
  | decompose level => exact (h.refused_decompose level).map fun s => (Answer.level s.2, s.1)
  | release level => exact ⟨_, rfl⟩
  | storeCount index n => exact (e.refused_storeCount index n).map _

theorem perform?_eq (h : e.Serving f) (r : Request) : (e.perform? r).run = some (e.perform r) := by
  cases r with
  | load g hg => exact Checked.run_bind (e.load?_eq g) fun _ _ => rfl
  | configure u => exact Checked.run_bind_read (e.configure?_eq u) _
  | assign l => exact Checked.run_bind (e.assign?_eq l) fun _ _ => rfl
  | unassign v => exact Checked.run_bind (e.unassign?_eq v) fun _ _ => rfl
  | value l => exact Checked.run_bind (e.value?_eq l) fun _ _ => rfl
  | score v => exact Checked.run_bind (h.loaded.score?_eq v) fun _ _ => rfl
  | rootLevel => exact Checked.run_bind_lift fun _ _ => rfl
  | component index => exact Checked.run_bind_lift fun _ _ => rfl
  | superComponent level => exact Checked.run_bind_lift fun _ _ => rfl
  | currentComponent level => exact Checked.run_bind_lift fun _ _ => rfl
  | beginPass level => exact Checked.run_bind (h.beginPass?_eq level) fun _ _ => rfl
  | nextComponent level => exact Checked.run_bind (h.nextComponent?_eq h.accepted h.inRange level) fun _ _ => rfl
  | decompose level => exact Checked.run_bind (h.decompose?_eq h.accepted h.inRange level) fun _ _ => rfl
  | release level => exact Checked.run_bind_read (e.release?_eq level) _
  | storeCount index n => exact Checked.run_bind_lift fun _ _ => rfl

theorem perform (h : e.Serving f) {r : Request} {answer : Answer} (hr : e.perform r = .ok (answer, e')) :
    e'.Serving (r.loaded f) := by
  cases r with
  | load g hg =>
    obtain ⟨_, e₁, hload, -, -, h₁⟩ := load_accepted e hg
    rw [Engine.perform, hload] at hr
    cases hr
    exact h₁
  | configure u =>
    cases hr
    exact (Call.configure e u).serving h
  | assign l =>
    obtain ⟨e₁, hok, hr⟩ := bind_eq_ok.1 hr
    cases hr
    exact (Call.assign hok).serving h
  | unassign v =>
    obtain ⟨e₁, hok, hr⟩ := bind_eq_ok.1 hr
    cases hr
    exact (Call.unassign hok).serving h
  | value _ | score _ | rootLevel | component _ | superComponent _ | currentComponent _ =>
    obtain ⟨_, -, hr⟩ := bind_eq_ok.1 hr
    cases hr
    exact h
  | beginPass level =>
    obtain ⟨e₁, hok, hr⟩ := bind_eq_ok.1 hr
    cases hr
    exact (Call.beginPass hok).serving h
  | nextComponent level =>
    obtain ⟨⟨found, e₁, level₁⟩, hok, hr⟩ := bind_eq_ok.1 hr
    cases hr
    exact (Call.nextComponent hok).serving h
  | decompose level =>
    obtain ⟨⟨e₁, level₁⟩, hok, hr⟩ := bind_eq_ok.1 hr
    cases hr
    exact (Call.decompose hok).serving h
  | release level =>
    cases hr
    exact (Call.release e level).serving h
  | storeCount index n =>
    obtain ⟨e₁, hok, hr⟩ := bind_eq_ok.1 hr
    cases hr
    exact (Call.storeCount hok).serving h

theorem after (h : e.Serving f) (r : Request) : (e.after r).Serving (r.loaded f) := by
  unfold Engine.after
  rcases hr : e.perform r with err | ⟨answer, e'⟩
  · -- No request to load a formula is refused.
    have hrefusal := ((h.refused r).error_iff err).1 hr
    cases r with
    | load g hg => cases hrefusal
    | _ => exact h
  · exact h.perform hr

/-- What holds of a loaded engine holds after any requests. -/
theorem serve (h : e.Serving f) (rs : List Request) : (e.serve rs).Serving (rs.foldl Request.loaded f) := by
  induction rs generalizing e f with
  | nil => exact h
  | cons r rs ih => exact ih (h.after r)

/-- The ids of a live component are ids of the formula in increasing order. -/
theorem sorted (h : e.Serving f) {c : Component} (hc : c ∈ e.stack.items) :
    (c.vars.Pairwise fun v w => v.id < w.id) ∧ (∀ v ∈ c.vars, v.id ≤ f.varCount) ∧
      (c.clauses.Pairwise fun j k => j.id < k.id) ∧ ∀ k ∈ c.clauses, k.id ≤ f.longs.length := by
  obtain ⟨view, ha, -⟩ := h.live c hc
  have hcomplete := ha.complete
  refine ⟨(firstN_pairwise _).sublist hcomplete.vars_sublist, (h.within hc).var_id_le,
    (firstN_clauses_pairwise _).sublist hcomplete.clauses_sublist, fun k hk => ?_⟩
  exact ClauseId.mem_firstN.1 ((h.within hc).clause_mem k hk)

end Serving

/-- An accepted formula is always loaded, and whatever is asked for after it, a request is refused by its own
check and by nothing else: a variable is beyond the formula, a position is beyond the stack, or the stack is
empty. No key is too large, no access goes beyond its range, and the live components list ids of the loaded
formula in increasing order. -/
theorem requests_in_bounds (e₀ : Engine) (hf : f.Accepted) :
    ∃ scheme key e₁, PackingScheme.ofMax f.varCount f.longs.length = .ok scheme ∧
      PackedKey.encode scheme (root f) = .ok key ∧ (e₀.load? f).run = some (.ok e₁) ∧ e₀.load f = .ok e₁ ∧
      ∀ rs : List Request, let e := e₁.serve rs; let g := rs.foldl Request.loaded f
        (∀ c ∈ e.stack.items, (c.vars.Pairwise fun v w => v.id < w.id) ∧ (∀ v ∈ c.vars, v.id ≤ g.varCount) ∧
          (c.clauses.Pairwise fun j k => j.id < k.id) ∧ ∀ k ∈ c.clauses, k.id ≤ g.longs.length) ∧
        ∀ r, (e.perform? r).run = some (e.perform r) ∧
          (∀ err, e.perform r = .error err ↔ e.refusal r = some err) ∧
          ∀ err, e.perform r = .error err → err = .notInitialized ∧ e.stack.isEmpty ∨
            (∃ v : Var, err = .variableOutOfRange v.id e.varCount ∧ e.varCount < v.id) ∨
            ∃ index, err = .componentOutOfRange index e.stack.size := by
  obtain ⟨key, e₁, hload, hscheme, hkey, h₁⟩ := load_accepted e₀ hf
  refine ⟨e₁.cache.scheme, key, e₁, hscheme, hkey, (e₀.load?_eq f).trans (congrArg some hload), hload, fun rs => ?_⟩
  have h := h₁.serve rs
  refine ⟨fun c hc => h.sorted hc, fun r => ⟨h.perform?_eq r, (h.refused r).error_iff, fun err herr => ?_⟩⟩
  exact refusal_kinds (((h.refused r).error_iff err).1 herr)

/-- A position and a variable too large by one are refused, and once the stack is empty, so is the question for
the root level. -/
theorem requests_in_bounds_twoParts :
    ∃ (e₁ : Engine) (split emptied : List Request), Engine.new.load (.ofCnf .twoParts) = .ok e₁ ∧
      split = [.decompose (.new 0 1)] ∧ emptied = split ++ [.release (.new 0 0)] ∧
      (e₁.serve split).stack.size = 3 ∧
      (∀ c ∈ (e₁.serve split).stack.items, c.vars.Pairwise fun v w => v.id < w.id) ∧
      ((e₁.serve split).perform? (.component 3)).run = some (.error (.componentOutOfRange 3 3)) ∧
      ((e₁.serve split).perform? (.unassign ⟨8, by decide⟩)).run = some (.error (.variableOutOfRange 8 7)) ∧
      ((e₁.serve emptied).perform? .rootLevel).run = some (.error .notInitialized) := by
  have haccepted : (Formula.ofCnf .twoParts).Accepted := ⟨by decide, _, rfl⟩
  obtain ⟨_, _, e₁, -, -, -, hload, h⟩ := requests_in_bounds .new haccepted
  let split : List Request := [.decompose (.new 0 1)]
  let emptied : List Request := split ++ [.release (.new 0 0)]
  have hcalls : (do
      let e ← Engine.new.load (.ofCnf .twoParts)
      return ((e.serve split).stack.size, (e.serve split).refusal (.component 3),
        (e.serve split).refusal (.unassign ⟨8, by decide⟩), (e.serve emptied).refusal .rootLevel)) =
        (.ok (3, some (.componentOutOfRange 3 3), some (.variableOutOfRange 8 7), some .notInitialized) :
          Except EngineError _) := by decide +kernel
  simp only [hload, bind, Except.bind, pure, Except.pure, Except.ok.injEq, Prod.mk.injEq] at hcalls
  obtain ⟨hsize, hposition, hvar, hempty⟩ := hcalls
  obtain ⟨hsorted, hsplit⟩ := h split
  obtain ⟨-, hemptied⟩ := h emptied
  have hrefused : ∀ {e : Engine} {r : Request} {err : EngineError}, (e.perform? r).run = some (e.perform r) →
      (∀ err, e.perform r = .error err ↔ e.refusal r = some err) → e.refusal r = some err →
      (e.perform? r).run = some (.error err) := fun hchecked herror hrefusal =>
    hchecked.trans (congrArg some ((herror _).2 hrefusal))
  exact ⟨e₁, split, emptied, hload, rfl, rfl, hsize, fun c hc => (hsorted c hc).1,
    hrefused (hsplit _).1 (hsplit _).2.1 hposition, hrefused (hsplit _).1 (hsplit _).2.1 hvar,
    hrefused (hemptied _).1 (hemptied _).2.1 hempty⟩

end Engine

end ModelCount
