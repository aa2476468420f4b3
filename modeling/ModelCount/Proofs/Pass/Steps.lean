/-
A search one step at a time. A moment of a search is the state of the pass, the number of positions of the
worklist that were taken, and the loop that the search stands in with what is left of it. Whoever marks a
variable seen asserts that it was unseen, and a step fails where that does not hold. A search goes through its
moments to the outcome that it has as a whole.
-/
import Mathlib.Logic.Relation
import ModelCount.Pass.Search

namespace ModelCount

namespace Pass

/-! ## Operations that assert something -/

/-- Reaches a variable, which has to be unseen. -/
def reachUnseen? (p : Pass) (v : Var) : Option Pass := if p.varMark v = .unseen then some (p.reach v) else none

def followUnseen? (p : Pass) (v w : Var) : Option Pass :=
  if p.varMark w = .unseen then (p.reachUnseen? w).map fun p => (p.raise v).raise w else some p

def meetUnseen? (p : Pass) (v : Var) : Option Pass :=
  let p := p.raise v
  if p.varMark v = .unseen then p.reachUnseen? v else some p

/-- Takes the component of a search out of `super`, which has to have `size` variables. -/
def takeExactly? (p : Pass) (super : Component) (size : Nat) : Option (Component × Component × Pass) :=
  if (p.takeComponent super).1.vars.length = size then some (p.takeComponent super) else none

theorem reachUnseen?_eq {p : Pass} {v : Var} (hv : p.varMark v = .unseen) : p.reachUnseen? v = some (p.reach v) :=
  if_pos hv

/-- Following a link tests what reaching a variable asserts. -/
theorem followUnseen?_eq (p : Pass) (v w : Var) : p.followUnseen? v w = some (p.follow v w) := by
  rw [followUnseen?, follow]
  split
  · rename_i hw
    rw [reachUnseen?_eq hw, Option.map_some]
  · rfl

/-- So does meeting a literal. -/
theorem meetUnseen?_eq (p : Pass) (v : Var) : p.meetUnseen? v = some (p.meet v) := by
  simp only [meetUnseen?, meet]
  split
  · rename_i hv
    exact reachUnseen?_eq hv
  · rfl

/-! ## Moments of a search -/

/-- Where a search stands: before the next position of the worklist, or in a loop over the links of the variable
`v`, with what is left of it. -/
inductive Point
  | worklist
  | links (v : Var) (rest : List Var)
  | clauses (v : Var) (rest : List ClauseId)
  /-- The scan of the clause `c`. If it turns out satisfied, the worklist is cut back to `len`. -/
  | scan (v : Var) (rest : List ClauseId) (c : ClauseId) (len : Nat) (scanned : List Lit) (whole : Bool)
      (lits : List Lit)
  deriving DecidableEq, Repr

/-- The length to which a scan under way may cut the worklist back. -/
def Point.rollback? : Point → Option Nat
  | .scan _ _ _ len .. => some len
  | _ => none

structure Moment where
  pass : Pass
  /-- How many positions of the worklist were taken. Every iteration of the search takes one. -/
  position : Nat := 0
  point : Point := .worklist
  deriving DecidableEq, Repr

inductive Outcome
  | next (m : Moment)
  | ended
  | failed
  deriving DecidableEq, Repr

namespace Moment

/-- The variables at the positions that were taken. -/
def processed (m : Moment) : List Var := m.pass.worklist.toList.take m.position

/-- The first moment of a search. -/
def start (p : Pass) (seed : Var) : Moment := { pass := { p with worklist := #[] }.reach seed }

def start? (p : Pass) (seed : Var) : Option Moment :=
  ({ p with worklist := #[] }.reachUnseen? seed).map fun pass => { pass }

theorem start?_eq {p : Pass} {seed : Var} (hseed : p.varMark seed = .unseen) : start? p seed = some (start p seed) := by
  have hempty : ({ p with worklist := #[] } : Pass).varMark seed = .unseen := hseed
  rw [start?, reachUnseen?_eq hempty]
  rfl

/-- The next moment, if what was asserted holds. -/
def ofPass? (position : Nat) (point : Point) : Option Pass → Outcome
  | some pass => .next ⟨pass, position, point⟩
  | none => .failed

variable (adj : Adjacency) (a : Assignment)

/-- One step of a search. -/
def step : Moment → Outcome
  | ⟨p, n, .worklist⟩ =>
    match p.worklist[n]? with
    | none => .ended
    | some v => .next ⟨p, n + 1, .links v (adj.neighboursOf v)⟩
  | ⟨p, n, .links v []⟩ => .next ⟨p, n, .clauses v (adj.clausesOf v)⟩
  | ⟨p, n, .links v (w :: rest)⟩ => ofPass? n (.links v rest) (p.followUnseen? v w)
  | ⟨p, n, .clauses _ []⟩ => .next ⟨p, n, .worklist⟩
  | ⟨p, n, .clauses v (c :: rest)⟩ =>
    if p.clauseMark c ≠ .unseen then .next ⟨p, n, .clauses v rest⟩
    else if (adj.watched c).any (p.satisfies a) then .next ⟨p.markClause c .outside, n, .clauses v rest⟩
    else .next ⟨p, n, .scan v rest c p.worklist.size [] true (adj.lits c)⟩
  | ⟨p, n, .scan v rest c _ _ whole []⟩ =>
    .next ⟨(p.markClause c (if whole then .seenWhole else .seen)).raise v, n, .clauses v rest⟩
  | ⟨p, n, .scan v rest c len scanned whole (l :: lits)⟩ =>
    if p.isOutside l.var then
      if a.isTrue l then .next ⟨(p.undo scanned len).markClause c .outside, n, .clauses v rest⟩
      else .next ⟨p, n, .scan v rest c len (l :: scanned) false lits⟩
    else ofPass? n (.scan v rest c len (l :: scanned) whole lits) (p.meetUnseen? l.var)

/-- Later moments of the same search. -/
def Reaches : Moment → Moment → Prop := Relation.ReflTransGen fun m m' => m.step adj a = .next m'

/-- What a step does, unless the search ends with it. -/
inductive Moves : Moment → Moment → Prop
  | take {p n v} (hv : p.worklist[n]? = some v) : Moves ⟨p, n, .worklist⟩ ⟨p, n + 1, .links v (adj.neighboursOf v)⟩
  | link {p n v w ws} : Moves ⟨p, n, .links v (w :: ws)⟩ ⟨p.follow v w, n, .links v ws⟩
  | linksDone {p n v} : Moves ⟨p, n, .links v []⟩ ⟨p, n, .clauses v (adj.clausesOf v)⟩
  | skip {p n v c cs} (hc : p.clauseMark c ≠ .unseen) : Moves ⟨p, n, .clauses v (c :: cs)⟩ ⟨p, n, .clauses v cs⟩
  | watched {p n v c cs} (hc : p.clauseMark c = .unseen) (hw : (adj.watched c).any (p.satisfies a) = true) :
    Moves ⟨p, n, .clauses v (c :: cs)⟩ ⟨p.markClause c .outside, n, .clauses v cs⟩
  | scan {p n v c cs} (hc : p.clauseMark c = .unseen) (hw : (adj.watched c).any (p.satisfies a) = false) :
    Moves ⟨p, n, .clauses v (c :: cs)⟩ ⟨p, n, .scan v cs c p.worklist.size [] true (adj.lits c)⟩
  | clausesDone {p n v} : Moves ⟨p, n, .clauses v []⟩ ⟨p, n, .worklist⟩
  | meet {p n v cs c len scanned whole l lits} (hl : p.isOutside l.var = false) :
    Moves ⟨p, n, .scan v cs c len scanned whole (l :: lits)⟩
      ⟨p.meet l.var, n, .scan v cs c len (l :: scanned) whole lits⟩
  | passBy {p n v cs c len scanned whole l lits} (hl : p.isOutside l.var = true) (ht : a.isTrue l = false) :
    Moves ⟨p, n, .scan v cs c len scanned whole (l :: lits)⟩ ⟨p, n, .scan v cs c len (l :: scanned) false lits⟩
  | undo {p n v cs c len scanned whole l lits} (hl : p.isOutside l.var = true) (ht : a.isTrue l = true) :
    Moves ⟨p, n, .scan v cs c len scanned whole (l :: lits)⟩
      ⟨(p.undo scanned len).markClause c .outside, n, .clauses v cs⟩
  | scanDone {p n v cs c len scanned whole} :
    Moves ⟨p, n, .scan v cs c len scanned whole []⟩
      ⟨(p.markClause c (if whole then .seenWhole else .seen)).raise v, n, .clauses v cs⟩

variable {adj a}

/-! ## What a step does -/

theorem step_of_moves {m m' : Moment} (h : Moves adj a m m') : m.step adj a = .next m' := by
  cases h with
  | take hv => rw [step, hv]
  | link =>
    rw [step, followUnseen?_eq]
    rfl
  | linksDone => rfl
  | skip hc => rw [step, if_pos hc]
  | watched hc hw => rw [step, if_neg (Decidable.not_not.2 hc), if_pos hw]
  | scan hc hw => rw [step, if_neg (Decidable.not_not.2 hc), hw, if_neg Bool.false_ne_true]
  | clausesDone => rfl
  | meet hl =>
    rw [step, hl, if_neg Bool.false_ne_true, meetUnseen?_eq]
    rfl
  | passBy hl ht => rw [step, if_pos hl, ht, if_neg Bool.false_ne_true]
  | undo hl ht => rw [step, if_pos hl, if_pos ht]
  | scanDone => rfl

theorem step_worklist_ended {p : Pass} {n : Nat} : step adj a ⟨p, n, .worklist⟩ = .ended ↔ p.worklist.size ≤ n := by
  rw [← Array.getElem?_eq_none_iff, step]
  cases p.worklist[n]? with
  | none => simp
  | some v => simp

/-- A search goes on or ends. -/
theorem ended_or_moves (adj : Adjacency) (a : Assignment) (m : Moment) :
    m.step adj a = .ended ∨ ∃ m', Moves adj a m m' := by
  obtain ⟨p, n, point⟩ := m
  cases point with
  | worklist =>
    cases hv : p.worklist[n]? with
    | none => exact .inl (step_worklist_ended.2 (Array.getElem?_eq_none_iff.1 hv))
    | some v => exact .inr ⟨_, .take hv⟩
  | links v ws =>
    cases ws with
    | nil => exact .inr ⟨_, .linksDone⟩
    | cons w ws => exact .inr ⟨_, .link⟩
  | clauses v cs =>
    cases cs with
    | nil => exact .inr ⟨_, .clausesDone⟩
    | cons c cs =>
      by_cases hc : p.clauseMark c = .unseen
      · cases hw : (adj.watched c).any (p.satisfies a) with
        | false => exact .inr ⟨_, .scan hc hw⟩
        | true => exact .inr ⟨_, .watched hc hw⟩
      · exact .inr ⟨_, .skip hc⟩
  | scan v cs c len scanned whole lits =>
    cases lits with
    | nil => exact .inr ⟨_, .scanDone⟩
    | cons l lits =>
      cases hl : p.isOutside l.var with
      | false => exact .inr ⟨_, .meet hl⟩
      | true =>
        cases ht : a.isTrue l with
        | false => exact .inr ⟨_, .passBy hl ht⟩
        | true => exact .inr ⟨_, .undo hl ht⟩

/-- No step fails: where a variable is reached, its mark was just tested. -/
theorem step_ne_failed (m : Moment) : m.step adj a ≠ .failed := by
  rcases ended_or_moves adj a m with hended | ⟨m', hmoves⟩
  · rw [hended]
    simp
  · rw [step_of_moves hmoves]
    simp

theorem moves_of_step {m m' : Moment} (h : m.step adj a = .next m') : Moves adj a m m' := by
  rcases ended_or_moves adj a m with hended | ⟨m'', hmoves⟩
  · rw [h] at hended
    cases hended
  · rw [step_of_moves hmoves] at h
    cases h
    exact hmoves

/-- The position counts the iterations. -/
theorem position_of_step {m m' : Moment} (h : m.step adj a = .next m') :
    m'.position = if m.point = .worklist then m.position + 1 else m.position := by
  cases moves_of_step h <;> rfl

/-! ## A whole search -/

theorem Reaches.refl (m : Moment) : Reaches adj a m m := Relation.ReflTransGen.refl

theorem Reaches.trans {m m' m'' : Moment} (h : Reaches adj a m m') (h' : Reaches adj a m' m'') : Reaches adj a m m'' :=
  Relation.ReflTransGen.trans h h'

theorem Moves.reaches {m m' : Moment} (h : Moves adj a m m') : Reaches adj a m m' :=
  Relation.ReflTransGen.single (step_of_moves h)

theorem reaches_links (n : Nat) (v : Var) (ws : List Var) (p : Pass) :
    Reaches adj a ⟨p, n, .links v ws⟩ ⟨ws.foldl (follow v) p, n, .links v []⟩ := by
  induction ws generalizing p with
  | nil => exact .refl _
  | cons w ws ih => exact Moves.link.reaches.trans (ih (p.follow v w))

/-- The scan of a clause ends as the search has it when it handles the clause as a whole. -/
theorem reaches_scan (n len : Nat) (v : Var) (c : ClauseId) (cs : List ClauseId) (lits scanned : List Lit)
    (whole : Bool) (p : Pass) :
    Reaches adj a ⟨p, n, .scan v cs c len scanned whole lits⟩
      ⟨(let (mark, p) := Pass.scan a len scanned whole p lits
        let p := p.markClause c mark
        if mark = .outside then p else p.raise v), n, .clauses v cs⟩ := by
  induction lits generalizing p scanned whole with
  | nil =>
    refine Moves.scanDone.reaches.trans ?_
    -- A clause whose scan comes to its end is not outside, whichever mark it gets.
    cases whole with
    | false => exact .refl _
    | true => exact .refl _
  | cons l lits ih =>
    rw [Pass.scan]
    cases hl : p.isOutside l.var with
    | false => exact (Moves.meet hl).reaches.trans (ih (l :: scanned) whole (p.meet l.var))
    | true =>
      cases ht : a.isTrue l with
      | false => exact (Moves.passBy hl ht).reaches.trans (ih (l :: scanned) false p)
      | true => exact (Moves.undo hl ht).reaches

theorem reaches_clauses (n : Nat) (v : Var) (cs : List ClauseId) (p : Pass) :
    Reaches adj a ⟨p, n, .clauses v cs⟩ ⟨cs.foldl (visitClause adj a v) p, n, .clauses v []⟩ := by
  induction cs generalizing p with
  | nil => exact .refl _
  | cons c cs ih =>
    refine Reaches.trans ?_ (ih (p.visitClause adj a v c))
    rw [visitClause]
    by_cases hc : p.clauseMark c = .unseen
    · rw [if_neg (Decidable.not_not.2 hc)]
      cases hw : (adj.watched c).any (p.satisfies a) with
      | true => exact (Moves.watched hc hw).reaches
      | false => exact (Moves.scan hc hw).reaches.trans (reaches_scan ..)
    · rw [if_pos hc]
      exact (Moves.skip hc).reaches

/-- An iteration of the search visits the variable at the next position. -/
theorem reaches_visit {n : Nat} {v : Var} {p : Pass} (hv : p.worklist[n]? = some v) :
    Reaches adj a ⟨p, n, .worklist⟩ ⟨p.visit adj a v, n + 1, .worklist⟩ := by
  have hlinks : Reaches adj a ⟨p, n, .worklist⟩ ⟨(adj.neighboursOf v).foldl (follow v) p, n + 1, .links v []⟩ :=
    (Moves.take hv).reaches.trans (reaches_links ..)
  have hclauses : Reaches adj a ⟨(adj.neighboursOf v).foldl (follow v) p, n + 1, .links v []⟩
      ⟨p.visit adj a v, n + 1, .clauses v []⟩ :=
    Moves.linksDone.reaches.trans (reaches_clauses ..)
  exact hlinks.trans (hclauses.trans Moves.clausesDone.reaches)

end Moment

end Pass

end ModelCount
