/-
A pass that stops where the tables and words it works on end. Every step is one of the pass itself, but a
cell is read or written only if its table has it, a row only if it lies within its pool, a score is raised
only if a word of 32 bits holds the result, and lowered only if it is not zero. Where one of these fails the
outcome is `none`; under the conditions given here, a step has an outcome and it is that of the plain pass.
-/
import ModelCount.Packing.Bits
import ModelCount.Proofs.Pass.Split

namespace ModelCount

/-! ## Tables and rows -/

namespace Table

variable {α : Type}

def get? (t : Table α) (i : Nat) : Option α := t.cells[i]?

def set? (t : Table α) (i : Nat) (x : α) : Option (Table α) := if i < t.size then some (t.set i x) else none

theorem get?_eq [Inhabited α] {t : Table α} {i : Nat} (h : i < t.size) : t.get? i = some (t.get i) := by
  simp [get?, get, Array.getD_eq_getD_getElem?, Array.getElem?_eq_getElem h]

theorem set?_eq {t : Table α} {i : Nat} (h : i < t.size) (x : α) : t.set? i x = some (t.set i x) := if_pos h

end Table

namespace Rows

variable {α : Type}

/-- Row `i`, if its two ends are known and lie within the pool. -/
def row? (r : Rows α) (i : Nat) : Option (List α) := do
  let first ← r.starts[i]?
  let last ← r.starts[i + 1]?
  guard (first ≤ last ∧ last ≤ r.pool.size)
  return (r.pool.extract first last).toList

theorem row?_ofLists {rows : List (List α)} {i : Nat} (hi : i < rows.length) :
    (ofLists rows).row? i = some ((ofLists rows).row i) := by
  have h := tiles_ofLists rows
  have hstart : ∀ j ≤ rows.length, (ofLists rows).starts[j]? = some ((ofLists rows).start j) := fun j hj => by
    rw [start_of_le h hj, ← Array.getElem?_toList, h.starts]
    simp [List.getElem?_map, List.getElem?_range (show j < rows.length + 1 by omega)]
  have hmono := (contiguous_ofLists rows).mono i hi
  have hle : (ofLists rows).start (i + 1) ≤ (ofLists rows).pool.size := by
    rw [start_of_le h hi, ← Array.length_toList, h.pool]
    exact offset_le rows (i + 1)
  simp only [row?, hstart i (Nat.le_of_lt hi), hstart (i + 1) hi, Option.bind_eq_bind, Option.bind_some]
  rw [guard, if_pos ⟨hmono, hle⟩]
  rfl

end Rows

namespace Adjacency

variable (adj : Adjacency)

def neighboursOf? (v : Var) : Option (List Var) := adj.neighbours.row? v.index

def clausesOf? (v : Var) : Option (List ClauseId) := adj.occurrences.row? v.index

def lits? (c : ClauseId) : Option (List Lit) := adj.clauses.row? c.index

/-- The first two literals of a clause, which has as many. -/
def watched? (c : ClauseId) : Option (List Lit) := do
  let lits ← adj.lits? c
  guard (2 ≤ lits.length)
  return lits.take 2

end Adjacency

namespace Assignment

def isActive? (a : Assignment) (v : Var) : Option Bool := (a.values.get? v.index).map Option.isNone

def isTrue? (a : Assignment) (l : Lit) : Option Bool := (a.values.get? l.var.index).map (· == some l.positive)

end Assignment

/-! ## Steps of a pass -/

namespace Pass

section

variable (p : Pass)

def varMark? (v : Var) : Option VarMark := p.vars.get? v.index

def clauseMark? (c : ClauseId) : Option ClauseMark := p.clauses.get? c.index

def markVar? (v : Var) (m : VarMark) : Option Pass := (p.vars.set? v.index m).map fun vars => { p with vars }

def markClause? (c : ClauseId) (m : ClauseMark) : Option Pass :=
  (p.clauses.set? c.index m).map fun clauses => { p with clauses }

def setScore? (v : Var) (n : Nat) : Option Pass := (p.scores.set? v.index n).map fun scores => { p with scores }

def raise? (v : Var) : Option Pass := do
  let n ← p.scores.get? v.index
  guard (n + 1 < wordSize)
  p.setScore? v (n + 1)

def lower? (v : Var) : Option Pass := do
  let n ← p.scores.get? v.index
  guard (0 < n)
  p.setScore? v (n - 1)

def isOutside? (v : Var) : Option Bool := (p.varMark? v).map (· == .outside)

def reach? (v : Var) : Option Pass := do
  let p ← p.markVar? v .seen
  return { p with worklist := p.worklist.push v }

end

def enterVar? (a : Assignment) (p : Pass) (v : Var) : Option Pass := do
  if ← a.isActive? v then
    let p ← p.markVar? v .unseen
    p.setScore? v 0
  else return p

def begin? (p : Pass) (a : Assignment) (super : Component) : Option Pass := do
  let p := { p with
    vars := .replicate p.vars.size .outside
    clauses := .replicate p.clauses.size .outside }
  let p ← super.vars.foldlM (enterVar? a) p
  super.clauses.foldlM (fun p c => p.markClause? c .unseen) p

def placeVars? (p : Pass) : List Var → Option (List Var × Pass)
  | [] => some ([], p)
  | v :: rest => do
    if (← p.varMark? v) = .seen then
      let (vars, p) ← (← p.markVar? v .placed).placeVars? rest
      return (v :: vars, p)
    else p.placeVars? rest

def placeClauses? (p : Pass) : List ClauseId → Option (List ClauseId × List ClauseId × Pass)
  | [] => some ([], [], p)
  | c :: rest => do
    match ← p.clauseMark? c with
    | .seen =>
      let (clauses, cut, p) ← (← p.markClause? c .placed).placeClauses? rest
      return (c :: clauses, c :: cut, p)
    | .seenWhole =>
      let (clauses, cut, p) ← (← p.markClause? c .placed).placeClauses? rest
      return (c :: clauses, cut, p)
    | _ => p.placeClauses? rest

def takeComponent? (p : Pass) (super : Component) : Option (Component × Component × Pass) := do
  let (vars, p) ← p.placeVars? super.vars
  let (clauses, cut, p) ← p.placeClauses? super.clauses
  return ({ vars, clauses }, { vars, clauses := cut }, p)

/-! ## Searches -/

section

variable (adj : Adjacency) (a : Assignment)

def satisfies? (p : Pass) (l : Lit) : Option Bool := do
  if ← p.isOutside? l.var then a.isTrue? l else return false

def follow? (v : Var) (p : Pass) (w : Var) : Option Pass := do
  if (← p.varMark? w) = .unseen then
    let p ← p.reach? w
    let p ← p.raise? v
    p.raise? w
  else return p

def meet? (p : Pass) (v : Var) : Option Pass := do
  let p ← p.raise? v
  if (← p.varMark? v) = .unseen then p.reach? v else return p

def lowerInside? (p : Pass) (l : Lit) : Option Pass := do
  if ← p.isOutside? l.var then return p else p.lower? l.var

/-- Undoes a scan; the worklist is not shorter than before the scan. -/
def undo? (p : Pass) (scanned : List Lit) (len : Nat) : Option Pass := do
  let p ← scanned.foldlM lowerInside? p
  guard (len ≤ p.worklist.size)
  let p ← (p.worklist.toList.drop len).foldlM (fun p v => p.markVar? v .unseen) p
  return { p with worklist := p.worklist.take len }

def scan? (len : Nat) (scanned : List Lit) (whole : Bool) (p : Pass) : List Lit → Option (ClauseMark × Pass)
  | [] => some (if whole then .seenWhole else .seen, p)
  | l :: rest => do
    if ← p.isOutside? l.var then
      if ← a.isTrue? l then return (.outside, ← p.undo? scanned len)
      else scan? len (l :: scanned) false p rest
    else scan? len (l :: scanned) whole (← p.meet? l.var) rest

def visitClause? (v : Var) (p : Pass) (c : ClauseId) : Option Pass := do
  if (← p.clauseMark? c) ≠ .unseen then return p
  else if ← (← adj.watched? c).anyM (p.satisfies? a) then p.markClause? c .outside
  else
    let (mark, p) ← scan? a p.worklist.size [] true p (← adj.lits? c)
    let p ← p.markClause? c mark
    if mark = .outside then return p else p.raise? v

def visit? (p : Pass) (v : Var) : Option Pass := do
  let p ← (← adj.neighboursOf? v).foldlM (follow? v) p
  (← adj.clausesOf? v).foldlM (visitClause? adj a v) p

def spread? : Nat → Nat → Pass → Option Pass
  | 0, _, p => some p
  | fuel + 1, position, p =>
    match p.worklist[position]? with
    | none => some p
    | some v => do spread? fuel (position + 1) (← p.visit? adj a v)

def search? (p : Pass) (seed : Var) : Option Pass := do
  let p ← { p with worklist := #[] }.reach? seed
  spread? adj a (p.vars.size + 1) 0 p

def explore? (p : Pass) (seed : Var) : Option (Bool × Pass) := do
  let p ← p.search? adj a seed
  if p.worklist.size = 1 then return (false, ← p.markVar? seed .placed) else return (true, p)

/-! ## Whole passes -/

def splitFrom? (super : Component) (p : Pass) : List Var → Option Split
  | [] => some { pass := p }
  | v :: rest => do
    if (← p.varMark? v) ≠ .unseen then splitFrom? super p rest
    else
      match ← p.explore? adj a v with
      | (false, p) =>
        let s ← splitFrom? super p rest
        return { s with isolated := v :: s.isolated }
      | (true, p) =>
        let (component, view, p') ← p.takeComponent? super
        let s ← splitFrom? super p' rest
        return { s with found := ⟨component, view, p.worklist.toList⟩ :: s.found }

def split? (p : Pass) (super : Component) : Option Split := do
  splitFrom? adj a super (← p.begin? a super) super.vars

end

end Pass

end ModelCount
