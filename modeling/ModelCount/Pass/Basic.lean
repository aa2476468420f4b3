/-
A pass splits one component, its super-component. The state of a pass tells for every variable and
every long clause how far it got, scores the variables by the clauses they were met in, and holds
the worklist of the search that is under way.
-/
import ModelCount.Adjacency
import ModelCount.Assignment
import ModelCount.Component

namespace ModelCount

inductive VarMark
  /-- Assigned, or not in the super-component. -/
  | outside
  | unseen
  | seen
  /-- Already in a component of the pass. -/
  | placed
  deriving DecidableEq, Repr, Inhabited

inductive ClauseMark
  /-- Satisfied, or not in the super-component. -/
  | outside
  | unseen
  | seen
  /-- Seen, and no variable of the clause is outside. -/
  | seenWhole
  /-- Already in a component of the pass. -/
  | placed
  deriving DecidableEq, Repr, Inhabited

structure Pass where
  vars : Table VarMark := default
  clauses : Table ClauseMark := default
  /-- How often a variable was met through a clause. -/
  scores : Table Nat := default
  /-- The variables the current search reached, in the order it reached them. -/
  worklist : Array Var := #[]
  deriving DecidableEq, Repr

namespace Pass

instance : Inhabited Pass := ⟨{}⟩

/-- The state before the first pass. -/
def ofCounts (varCount clauseCount : Nat) : Pass where
  vars := .replicate varCount .outside
  clauses := .replicate clauseCount .outside
  scores := .replicate varCount 0

/-! ## Marks and scores -/

def varMark (p : Pass) (v : Var) : VarMark := p.vars.get v.index

def clauseMark (p : Pass) (c : ClauseId) : ClauseMark := p.clauses.get c.index

def score (p : Pass) (v : Var) : Nat := p.scores.get v.index

def markVar (p : Pass) (v : Var) (m : VarMark) : Pass := { p with vars := p.vars.set v.index m }

def markClause (p : Pass) (c : ClauseId) (m : ClauseMark) : Pass :=
  { p with clauses := p.clauses.set c.index m }

def setScore (p : Pass) (v : Var) (n : Nat) : Pass := { p with scores := p.scores.set v.index n }

def raise (p : Pass) (v : Var) : Pass := p.setScore v (p.score v + 1)

def lower (p : Pass) (v : Var) : Pass := p.setScore v (p.score v - 1)

/-- Whether the variable takes no part in the pass. -/
def isOutside (p : Pass) (v : Var) : Bool := p.varMark v == .outside

/-- Appends a variable that the search reached. -/
def reach (p : Pass) (v : Var) : Pass :=
  let p := p.markVar v .seen
  { p with worklist := p.worklist.push v }

/-! ## What the operations read and write -/

theorem varMark_markVar (p : Pass) (v w : Var) (m : VarMark) :
    (p.markVar v m).varMark w = if v = w ∧ w.index < p.vars.size then m else p.varMark w := by
  simp only [varMark, markVar, Table.get_set, Var.index_inj]

@[simp] theorem clauseMark_markVar (p : Pass) (v : Var) (m : VarMark) (c : ClauseId) :
    (p.markVar v m).clauseMark c = p.clauseMark c := rfl

theorem clauseMark_markClause (p : Pass) (c d : ClauseId) (m : ClauseMark) :
    (p.markClause c m).clauseMark d = if c = d ∧ d.index < p.clauses.size then m else p.clauseMark d := by
  simp only [clauseMark, markClause, Table.get_set, ClauseId.index_inj]

@[simp] theorem varMark_raise (p : Pass) (v w : Var) : (p.raise v).varMark w = p.varMark w := rfl

@[simp] theorem clauseMark_raise (p : Pass) (v : Var) (c : ClauseId) : (p.raise v).clauseMark c = p.clauseMark c := rfl

@[simp] theorem worklist_raise (p : Pass) (v : Var) : (p.raise v).worklist = p.worklist := rfl

theorem varMark_reach (p : Pass) (v w : Var) :
    (p.reach v).varMark w = if v = w ∧ w.index < p.vars.size then .seen else p.varMark w :=
  varMark_markVar p v w .seen

@[simp] theorem worklist_reach (p : Pass) (v : Var) : (p.reach v).worklist = p.worklist.push v := rfl

/-- A variable beyond the table is outside. -/
theorem index_lt_of_varMark {p : Pass} {v : Var} (h : p.varMark v ≠ .outside) : v.index < p.vars.size := by
  refine Nat.lt_of_not_le fun hle => h ?_
  rw [varMark, Table.get_of_size_le _ hle]
  rfl

theorem index_lt_of_clauseMark {p : Pass} {c : ClauseId} (h : p.clauseMark c ≠ .outside) :
    c.index < p.clauses.size := by
  refine Nat.lt_of_not_le fun hle => h ?_
  rw [clauseMark, Table.get_of_size_le _ hle]
  rfl

/-! ## Beginning a pass -/

/-- A variable of the super-component takes part if it is unassigned; its score starts anew. -/
def enterVar (a : Assignment) (p : Pass) (v : Var) : Pass :=
  if a.isActive v then (p.markVar v .unseen).setScore v 0 else p

/-- Sets all marks for a pass over `super`. Scores of variables that take no part stay. -/
def begin (p : Pass) (a : Assignment) (super : Component) : Pass :=
  let p := { p with
    vars := .replicate p.vars.size .outside
    clauses := .replicate p.clauses.size .outside }
  let p := super.vars.foldl (enterVar a) p
  super.clauses.foldl (fun p c => p.markClause c .unseen) p

/-! ## Taking a component out of a pass -/

/-- The seen variables of a list, which are placed. -/
def placeVars (p : Pass) : List Var → List Var × Pass
  | [] => ([], p)
  | v :: rest =>
    if p.varMark v = .seen then
      let (vars, p) := (p.markVar v .placed).placeVars rest
      (v :: vars, p)
    else p.placeVars rest

/-- The seen clauses of a list, which are placed, and those among them that have a variable
outside. -/
def placeClauses (p : Pass) : List ClauseId → List ClauseId × List ClauseId × Pass
  | [] => ([], [], p)
  | c :: rest =>
    match p.clauseMark c with
    | .seen =>
      let (clauses, cut, p) := (p.markClause c .placed).placeClauses rest
      (c :: clauses, c :: cut, p)
    | .seenWhole =>
      let (clauses, cut, p) := (p.markClause c .placed).placeClauses rest
      (c :: clauses, cut, p)
    | _ => p.placeClauses rest

/-- The component the search found within `super`, and its view for the cache. The view leaves out
the clauses that lost no variable, because the variables alone tell which these are. -/
def takeComponent (p : Pass) (super : Component) : Component × Component × Pass :=
  let (vars, p) := p.placeVars super.vars
  let (clauses, cut, p) := p.placeClauses super.clauses
  ({ vars, clauses }, { vars, clauses := cut }, p)

end Pass

end ModelCount
