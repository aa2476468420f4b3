/-
The turns of a pass. A pass deals with the variables of its super-component one after the other. A variable that
is still unseen starts a search, which comes to all clauses of the variables that it reaches, also of those that
it took back and reached again. So once its variables are placed, no unseen clause mentions one of them, and no
later search leads back to them.
-/
import ModelCount.Proofs.Pass.Worklist

namespace ModelCount

variable {f : Formula} {super : Component}

theorem Component.Within.length_active_le (hfit : super.Within f) (a : Assignment) :
    (super.vars.filter a.isActive).length ≤ f.varCount := by
  have hsub : super.vars.filter a.isActive ⊆ f.vars := by
    intro v hv
    exact Var.mem_firstN.2 (hfit.var_id_le v (List.mem_filter.1 hv).1)
  simpa [Formula.vars] using (List.subperm_of_subset (hfit.nodup_vars.filter _) hsub).length_le

namespace Pass

variable {a : Assignment}

/-! ## Between two searches -/

/-- No unseen clause mentions a variable that is placed. -/
def Detached (f : Formula) (p : Pass) : Prop :=
  ∀ c v, p.clauseMark c = .unseen → f.Mentions c v → p.varMark v ≠ .placed

/-- The state between two searches, from which there is no way back to what is placed. -/
structure Idle (f : Formula) (a : Assignment) (super : Component) (p : Pass) : Prop extends Between f a super p where
  detached : p.Detached f

/-- What is not outside is active. -/
theorem Idle.mem_active {p : Pass} (hi : Idle f a super p) (v : Var) (hv : p.varMark v ≠ .outside) :
    v ∈ super.vars.filter a.isActive := by
  rw [ne_eq, hi.outside, Decidable.not_not] at hv
  exact List.mem_filter.2 hv

theorem begin_idle (hfit : super.Within f) {p : Pass} (hp : p.Fits f) : Idle f a super (p.begin a super) := by
  obtain ⟨-, hvars, -⟩ := begin_reads (a := a) hfit hp
  refine ⟨begin_between hfit hp, fun c v _ _ hplaced => ?_⟩
  rw [hvars] at hplaced
  split at hplaced
  · cases hplaced
  · cases hplaced

section

variable {p q r : Pass} {seed : Var}

/-- A clause that is unseen after a search mentions none of the variables that the search reached. -/
theorem Searched.detached (hs : Searched f a super p seed q) (hd : p.Detached f)
    (hv : ∀ v, r.varMark v = if v ∈ q.worklist.toList then .placed else p.varMark v)
    (hc : ∀ c, r.clauseMark c = .unseen → q.clauseMark c = .unseen) : r.Detached f := by
  intro c v hu hcv hplaced
  have hq := hc c hu
  have hp : p.clauseMark c = .unseen := by
    by_contra hne
    rw [hs.kept c fun h => (hne h).elim] at hq
    exact hne hq
  rw [hv] at hplaced
  split at hplaced
  · -- The search met every unseen clause of a variable that it reached, and left none of them unseen.
    rename_i hmem
    rw [hs.met c hp ⟨v, hmem, hcv⟩] at hq
    exact Formula.metMark_ne_unseen hq
  · exact hd c v hp hcv hplaced

/-- After the search of an isolated variable. -/
theorem Idle.place (hi : Idle f a super p) (hs : Searched f a super p seed q) (hsize : q.worklist.size = 1) :
    Idle f a super (q.markVar seed .placed) := by
  have hiso := (hs.isolated_iff hi.toReady).1 hsize
  obtain ⟨hb, hv⟩ := hs.between_isolated hi.toBetween hiso
  refine ⟨hb, hs.detached hi.detached (fun v => ?_) fun c hc => hc⟩
  rw [hv]
  refine if_congr ?_ rfl rfl
  rw [hs.mem_worklist]
  -- The worklist of an isolated variable holds that variable only.
  constructor
  · rintro rfl
    exact .refl _
  · exact Formula.eq_of_reachable_isolated hiso

/-- After any other search, whose component has the variables of the worklist. -/
theorem Idle.take (hfit : super.Within f) (hi : Idle f a super p) (hs : Searched f a super p seed q)
    (hsize : q.worklist.size ≠ 1) :
    Idle f a super (q.takeComponent super).2.2 ∧
      q.takeExactly? super q.worklist.size = some (q.takeComponent super) := by
  have hiso := mt (hs.isolated_iff hi.toReady).2 hsize
  rw [takeExactly?]
  rcases htake : q.takeComponent super with ⟨component, view, r⟩
  obtain ⟨hsplits, -, hb, hv⟩ := hs.takeComponent hfit hi.toBetween hiso htake
  obtain ⟨-, -, -, hclauses, -⟩ := takeComponent_reads (f := f) hfit.nodup_vars hfit.nodup_clauses htake
  constructor
  · refine ⟨hb, hs.detached hi.detached hv fun c hc => ?_⟩
    rw [hclauses] at hc
    split at hc
    · cases hc
    · exact hc
  · have hlength : q.worklist.size = component.vars.length := by
      rw [← Array.length_toList]
      exact hsplits.reached_perm.length_eq
    exact if_pos hlength.symm

end

/-! ## One turn after the other -/

section

variable (adj : Adjacency) (a : Assignment) (super : Component) (p : Pass)

/-- What a pass over `super` does with one variable. -/
def turn (p : Pass) (v : Var) : Pass :=
  if p.varMark v ≠ .unseen then p
  else
    let q := p.search adj a v
    if q.worklist.size = 1 then q.markVar v .placed else (q.takeComponent super).2.2

theorem pass_splitFrom : ∀ (vs : List Var) (p : Pass),
    (p.splitFrom adj a super vs).pass = vs.foldl (turn adj a super) p
  | [], _ => rfl
  | v :: vs, p => by
    rw [splitFrom, List.foldl_cons, turn, explore]
    by_cases hv : p.varMark v ≠ .unseen
    · rw [if_pos hv, if_pos hv]
      exact pass_splitFrom vs p
    · rw [if_neg hv, if_neg hv]
      by_cases hsize : (p.search adj a v).worklist.size = 1
      · simp only [if_pos hsize]
        exact pass_splitFrom vs _
      · simp only [if_neg hsize]
        exact pass_splitFrom vs _

/-- The state of a pass over `super` once it has dealt with the variables `done`. -/
def after (done : List Var) : Pass := (splitFrom adj a super (p.begin a super) done).pass

theorem after_all : after adj a super p super.vars = (p.split adj a super).pass := rfl

theorem after_concat (done : List Var) (v : Var) :
    after adj a super p (done ++ [v]) = turn adj a super (after adj a super p done) v := by
  rw [after, after, pass_splitFrom, pass_splitFrom, List.foldl_append]
  rfl

end

theorem Idle.turn (hfit : super.Within f) {p : Pass} (hi : Idle f a super p) (v : Var) :
    Idle f a super (turn (.ofFormula f) a super p v) := by
  rw [Pass.turn]
  split
  · exact hi
  · rename_i hv
    simp only [ne_eq, Decidable.not_not] at hv
    have hs := hi.toReady.search hfit hv
    simp only
    split
    · exact hi.place hs ‹_›
    · exact (hi.take hfit hs ‹_›).1

theorem idle_after (hfit : super.Within f) {p : Pass} (hp : p.Fits f) (done : List Var) :
    Idle f a super (after (.ofFormula f) a super p done) := by
  rw [after, pass_splitFrom]
  exact List.foldlRecOn done _ (begin_idle hfit hp) fun p hi v _ => hi.turn hfit v

/-- A search from `seed` that a pass over `super` makes on its way from the state `p` to the state `q`, one step
at a time from the moment `start` to the moment `final`. -/
structure SearchTurn (adj : Adjacency) (a : Assignment) (super : Component) (p : Pass) (seed : Var) (q : Pass)
    (start final : Moment) : Prop where
  start? : Moment.start? p seed = some start
  not_failed : ∀ m, Moment.Reaches adj a start m → m.step adj a ≠ .failed
  sound : ∀ m, Moment.Reaches adj a start m → m.Sound (super.vars.filter a.isActive)
  processed : ∀ m m', Moment.Reaches adj a start m → m.step adj a = .next m' →
    m.processed <+: m'.pass.worklist.toList
  reaches : Moment.Reaches adj a start final
  ended : final.step adj a = .ended
  pass_eq : final.pass = p.search adj a seed
  /-- The position counts the iterations. -/
  start_position : start.position = 0
  position : ∀ m m', Moment.Reaches adj a start m → m.step adj a = .next m' →
    m'.position = if m.point = .worklist then m.position + 1 else m.position
  position_le : ∀ m, Moment.Reaches adj a start m → m.position ≤ (super.vars.filter a.isActive).length
  final_position : final.position = final.pass.worklist.size
  isolated : final.pass.worklist.size = 1 → q = final.pass.markVar seed .placed
  component : final.pass.worklist.size ≠ 1 → ∃ component view,
    final.pass.takeExactly? super final.pass.worklist.size = some (component, view, q)

theorem Idle.searchTurn (hfit : super.Within f) {p : Pass} (hi : Idle f a super p) {seed : Var}
    (hseed : p.varMark seed = .unseen) :
    ∃ start final, SearchTurn (.ofFormula f) a super p seed (Pass.turn (.ofFormula f) a super p seed) start final := by
  have hlength : (super.vars.filter a.isActive).length ≤ p.vars.size :=
    (hfit.length_active_le a).trans_eq hi.fits.vars.symm
  have hstart := Moment.sound_start hseed hi.not_seen hi.mem_active
  obtain ⟨final, hr, hended, hpass, hposition⟩ := Moment.reaches_search (.ofFormula f) a hstart hlength
  have hs := hi.toReady.search hfit hseed
  rw [Pass.turn, if_neg (not_not.2 hseed)]
  simp only
  refine ⟨.start p seed, final, {
    start? := Moment.start?_eq hseed
    not_failed := fun m _ => m.step_ne_failed
    sound := fun m hm => hstart.reaches hm
    processed := fun m m' hm hstep => ((hstart.reaches hm).step hstep).2
    reaches := hr
    ended := hended
    pass_eq := hpass
    start_position := rfl
    position := fun m m' _ hstep => Moment.position_of_step hstep
    position_le := fun m hm => (hstart.reaches hm).position_le_length
    final_position := hposition
    isolated := fun hsize => ?_
    component := fun hsize => ?_ }⟩
  · rw [hpass] at hsize ⊢
    exact if_pos hsize
  · rw [hpass] at hsize ⊢
    rw [if_neg hsize]
    exact ⟨_, _, (hi.take hfit hs hsize).2⟩

end Pass

end ModelCount
