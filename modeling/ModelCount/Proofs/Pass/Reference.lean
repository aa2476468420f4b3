/-
A search without shortcuts. One variant scans every unseen clause, whatever its first literals are;
the other looks through the whole clause before it changes anything, so it never has to undo a scan.
Both do to every state what the search does that tries the watched literals first.
-/
import ModelCount.Proofs.Pass.Scan

namespace ModelCount

namespace Pass

variable (adj : Adjacency) (a : Assignment)

/-! ## Two other ways to handle a clause -/

/-- Handles a clause without trying its first literals: every unseen clause is scanned. -/
def scanClause (v : Var) (p : Pass) (c : ClauseId) : Pass :=
  if p.clauseMark c ≠ .unseen then p
  else
    let (mark, p) := scan a p.worklist.size [] true p (adj.lits c)
    let p := p.markClause c mark
    if mark = .outside then p else p.raise v

/-- Meets the literals that take part, one after the other, and tells whether all of them do. -/
def meetEach (whole : Bool) (p : Pass) : List Lit → Bool × Pass
  | [] => (whole, p)
  | l :: rest => if p.isOutside l.var then meetEach false p rest else meetEach whole (p.meet l.var) rest

/-- Handles a clause by testing all of its literals first. A satisfied clause only gets its mark. -/
def testClause (v : Var) (p : Pass) (c : ClauseId) : Pass :=
  if p.clauseMark c ≠ .unseen then p
  else if (adj.lits c).any (p.satisfies a) then p.markClause c .outside
  else
    let (whole, p) := meetEach true p (adj.lits c)
    (p.markClause c (if whole then .seenWhole else .seen)).raise v

/-! ## A search that handles clauses in a given way -/

section

variable (handle : Var → Pass → ClauseId → Pass)

def visitWith (p : Pass) (v : Var) : Pass :=
  let p := (adj.neighboursOf v).foldl (follow v) p
  (adj.clausesOf v).foldl (handle v) p

def spreadWith : Nat → Nat → Pass → Pass
  | 0, _, p => p
  | fuel + 1, position, p =>
    match p.worklist[position]? with
    | none => p
    | some v => spreadWith fuel (position + 1) (p.visitWith adj handle v)

/-- The search for the component of `seed` with the given way to handle a clause. -/
def searchWith (p : Pass) (seed : Var) : Pass :=
  let p := { p with worklist := #[] }.reach seed
  spreadWith adj handle (p.vars.size + 1) 0 p

end

theorem spreadWith_visitClause : ∀ (fuel position : Nat) (p : Pass),
    spreadWith adj (visitClause adj a) fuel position p = spread adj a fuel position p
  | 0, _, _ => rfl
  | fuel + 1, position, p => by
    rw [spreadWith, spread]
    cases p.worklist[position]? with
    | none => rfl
    | some v => exact spreadWith_visitClause fuel (position + 1) (p.visit adj a v)

theorem searchWith_visitClause (p : Pass) (seed : Var) :
    p.searchWith adj (visitClause adj a) seed = p.search adj a seed :=
  spreadWith_visitClause adj a _ 0 _

/-! ## The three ways agree -/

variable {adj a}

/-- Scanning a clause with a literal that satisfies it takes back all that the scan did. -/
theorem scan_of_satisfies {p : Pass} {lits : List Lit} {l : Lit} (hl : l ∈ lits) (hs : p.satisfies a l = true) :
    scan a p.worklist.size [] true p lits = (.outside, p) := by
  rw [scan_eq, if_pos (List.any_eq_true.2 ⟨l, hl, hs⟩)]

theorem scanClause_eq_visitClause : scanClause adj a = visitClause adj a := by
  funext v p c
  rw [scanClause, visitClause]
  split
  · rfl
  · by_cases hw : (adj.watched c).any (p.satisfies a) = true
    · obtain ⟨l, hl, hs⟩ := List.any_eq_true.1 hw
      rw [if_pos hw, scan_of_satisfies (List.mem_of_mem_take hl) hs]
      rfl
    · rw [if_neg hw]

/-- Meeting a literal keeps what is outside, so the literals met are those that took part at first. -/
theorem meetEach_from {p : Pass} (lits : List Lit) {q : Pass} (whole : Bool)
    (hout : ∀ v, q.isOutside v = p.isOutside v) :
    meetEach whole q lits = (whole && lits.all fun l => !p.isOutside l.var, q.meetAll (p.inside lits)) := by
  induction lits generalizing q whole with
  | nil => simp [meetEach, inside, meetAll]
  | cons l lits ih =>
    rw [meetEach, hout]
    by_cases hl : p.isOutside l.var = true
    · rw [if_pos hl, ih false hout]
      simp [hl, inside]
    · simp only [Bool.not_eq_true] at hl
      have hq : q.isOutside l.var = false := (hout _).trans hl
      rw [hl, if_neg Bool.false_ne_true, ih whole fun v => (isOutside_meet hq v).trans (hout v)]
      simp [hl, inside, meetAll]

theorem testClause_eq_visitClause : testClause adj a = visitClause adj a := by
  funext v p c
  rw [testClause, visitClause_eq, meetEach_from (p := p) _ true fun _ => rfl]
  rfl

/-- A search with watched literals ends in the very state in which a search ends that scans every unseen
clause, and in which one ends that tests each clause as a whole before it meets its literals. A scan of a
clause that some literal satisfies, wherever that literal stands, gives back the state it started from, so
that only the mark of the clause is new. -/
theorem search_eq_reference (adj : Adjacency) (a : Assignment) :
    (∀ (p : Pass) (seed : Var), p.search adj a seed = p.searchWith adj (scanClause adj a) seed ∧
      p.search adj a seed = p.searchWith adj (testClause adj a) seed) ∧
    ∀ (p : Pass) (c : ClauseId) (before after : List Lit) (l : Lit), p.clauseMark c = .unseen →
      adj.lits c = before ++ l :: after → p.satisfies a l = true →
        scan a p.worklist.size [] true p (adj.lits c) = (.outside, p) ∧
        ∀ v, scanClause adj a v p c = p.markClause c .outside := by
  refine ⟨fun p seed => ?_, fun p c before after l hu hlits hl => ?_⟩
  · rw [scanClause_eq_visitClause, testClause_eq_visitClause, searchWith_visitClause]
    exact ⟨rfl, rfl⟩
  · have hscan : scan a p.worklist.size [] true p (adj.lits c) = (.outside, p) :=
      scan_of_satisfies (by rw [hlits]; simp) hl
    refine ⟨hscan, fun v => ?_⟩
    simp only [scanClause, hscan]
    simp [hu]

/-- The true literal is the third one, so it is not watched, and two literals are met before it. -/
theorem search_eq_reference_third :
    let v (i : Nat) : Var := ⟨i + 1, i.succ_pos⟩
    let c : ClauseId := ⟨1, Nat.one_pos⟩
    let adj : Adjacency := .ofFormula (.ofCnf (.ofClauses [(List.range 3).map fun i => (v i).lit true] 3))
    let a := (Assignment.empty 3).set ((v 2).lit true)
    let p := (Pass.ofCounts 3 1).begin a ⟨(List.range 3).map v, [c], none⟩
    p.clauseMark c = .unseen ∧ (adj.watched c).any (p.satisfies a) = false ∧
      scan a p.worklist.size [] true p (adj.lits c) = (.outside, p) ∧
      ∀ w, scanClause adj a w p c = p.markClause c .outside := by
  intro v c adj a p
  have hu : p.clauseMark c = .unseen := by decide +kernel
  have hlits : adj.lits c = [(v 0).lit true, (v 1).lit true] ++ (v 2).lit true :: [] := by decide +kernel
  have hl : p.satisfies a ((v 2).lit true) = true := by decide +kernel
  exact ⟨hu, by decide +kernel, (search_eq_reference adj a).2 p c _ _ _ hu hlits hl⟩

end Pass

end ModelCount
