/-
The search for the component of a variable. It follows binary clauses and those long clauses of the
super-component that have no true literal outside. A clause is scanned literal by literal, and what
the scan did is undone when it meets such a literal; the literals a clause lists first are tried
before the scan.
-/
import ModelCount.Pass.Basic

namespace ModelCount

namespace Pass

variable (adj : Adjacency) (a : Assignment)

/-- A true literal of a variable outside satisfies its clause for the whole pass. -/
def satisfies (p : Pass) (l : Lit) : Bool := p.isOutside l.var && a.isTrue l

/-! ## Binary clauses -/

/-- Follows the link from `v` to a neighbour, which counts for both if the neighbour is new. -/
def follow (v : Var) (p : Pass) (w : Var) : Pass :=
  if p.varMark w = .unseen then ((p.reach w).raise v).raise w else p

/-! ## Long clauses -/

/-- Meets a literal whose variable takes part: its score rises, and a new variable is reached. -/
def meet (p : Pass) (v : Var) : Pass :=
  let p := p.raise v
  if p.varMark v = .unseen then p.reach v else p

/-- Undoes a scan: the scores of the literals scanned fall, and the variables that the worklist
has beyond `len` become unseen again. -/
def undo (p : Pass) (scanned : List Lit) (len : Nat) : Pass :=
  let p := scanned.foldl (fun p l => if p.isOutside l.var then p else p.lower l.var) p
  let p := (p.worklist.toList.drop len).foldl (fun p v => p.markVar v .unseen) p
  { p with worklist := p.worklist.take len }

/-- Scans the literals of a clause and gives the mark the clause gets. `len` is the length of the
worklist before the scan, `scanned` holds the literals already met, and `whole` tells that none of
them is outside. -/
def scan (len : Nat) (scanned : List Lit) (whole : Bool) (p : Pass) : List Lit → ClauseMark × Pass
  | [] => (if whole then .seenWhole else .seen, p)
  | l :: rest =>
    if p.isOutside l.var then
      if a.isTrue l then (.outside, p.undo scanned len)
      else scan len (l :: scanned) false p rest
    else scan len (l :: scanned) whole (p.meet l.var) rest

/-- Handles one clause of the variable `v`. Only an unseen clause is scanned, and one that was not
found satisfied counts for `v` once more. -/
def visitClause (v : Var) (p : Pass) (c : ClauseId) : Pass :=
  if p.clauseMark c ≠ .unseen then p
  else if (adj.watched c).any (p.satisfies a) then p.markClause c .outside
  else
    let (mark, p) := scan a p.worklist.size [] true p (adj.lits c)
    let p := p.markClause c mark
    if mark = .outside then p else p.raise v

/-! ## The search -/

/-- Follows all links of a variable. -/
def visit (p : Pass) (v : Var) : Pass :=
  let p := (adj.neighboursOf v).foldl (follow v) p
  (adj.clausesOf v).foldl (visitClause adj a v) p

/-- Visits the worklist from a position on, while it grows. -/
def spread : Nat → Nat → Pass → Pass
  | 0, _, p => p
  | fuel + 1, position, p =>
    match p.worklist[position]? with
    | none => p
    | some v => spread fuel (position + 1) (p.visit adj a v)

/-- Searches the component of `seed`, which is left in the worklist. A variable is reached at most
once, so no more positions are visited than there are variables. -/
def search (p : Pass) (seed : Var) : Pass :=
  let p := { p with worklist := #[] }.reach seed
  spread adj a (p.vars.size + 1) 0 p

/-- Searches the component of `seed` and tells whether it is one. A variable reached alone is
isolated, and placed at once. -/
def explore (p : Pass) (seed : Var) : Bool × Pass :=
  let p := p.search adj a seed
  if p.worklist.size = 1 then (false, p.markVar seed .placed) else (true, p)

end Pass

end ModelCount
