/-
Unit propagation: as long as some clause has one unassigned literal and no true one, that literal
becomes true.
-/
import ModelCount.Assignment
import ModelCount.Formula

namespace ModelCount

/-- What an assignment makes of a clause without repeated literals. -/
inductive ClauseStatus
  | satisfied
  | conflict
  | unit (l : Lit)
  | undecided
  deriving DecidableEq, Repr

def ClauseStatus.of (a : Assignment) (clause : List Lit) : ClauseStatus :=
  if clause.any a.isTrue then .satisfied
  else match clause.filter fun l => a.isActive l.var with
    | [] => .conflict
    | [l] => .unit l
    | _ => .undecided

/-- The clauses of a formula, each with its literals sorted and without repeats. -/
def Cnf.distinctClauses (f : Cnf) : List (List Lit) := f.clauses.map sortLits

/-- The outcome of propagating: the assignment it reached and the variables it assigned, of which
the last comes first. -/
structure Propagation where
  consistent : Bool := true
  assignment : Assignment
  trail : List Var
  deriving DecidableEq, Repr

namespace Propagation

/-- Goes through the clauses once, up to the first one without a literal left. -/
def round (s : Propagation) : List (List Lit) → Propagation
  | [] => s
  | c :: rest =>
    match ClauseStatus.of s.assignment c with
    | .conflict => { s with consistent := false }
    | .unit l => { s with assignment := s.assignment.set l, trail := l.var :: s.trail }.round rest
    | _ => s.round rest

/-- Repeats rounds until one assigns nothing. -/
def rounds (clauses : List (List Lit)) : Nat → Propagation → Propagation
  | 0, s => s
  | fuel + 1, s =>
    let s' := s.round clauses
    if s'.consistent && s'.trail.length != s.trail.length then rounds clauses fuel s' else s'

end Propagation

/-- Propagates through the clauses. Every round but the last assigns a variable. -/
def Assignment.propagate (a : Assignment) (clauses : List (List Lit)) (trail : List Var) : Propagation :=
  Propagation.rounds clauses (a.varCount + 1) { assignment := a, trail }

end ModelCount
