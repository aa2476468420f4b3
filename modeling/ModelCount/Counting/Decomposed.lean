/-
Counting by decomposition. The formula falls into components, and a component is counted by
branching on its variable of the highest score: each branch propagates and falls into smaller
components. The counts of the components of a branch multiply, those of the branches add up.
-/
import ModelCount.Counting.Propagation
import ModelCount.Engine.Decomposition

namespace ModelCount

/-- Why a count was not finished. -/
inductive CountError
  | engine (reason : EngineError)
  /-- The bound on the depth or on the components of a level was too low. -/
  | outOfSteps
  deriving DecidableEq, Repr

namespace CountError

def message : CountError → String
  | engine reason => reason.message
  | outOfSteps => "Out of steps"

end CountError

namespace Engine

/-- The variable of the highest score; of several the last one. -/
def branchVar (e : Engine) : List Var → Option Var
  | [] => none
  | v :: rest => some (rest.foldl (fun best w => if e.pass.score best ≤ e.pass.score w then w else best) v)

/-- Counts the components of a level with the given solver, and multiplies their counts into it. -/
def countLevel (solve : Engine → Nat → Except CountError (Nat × Engine)) :
    Nat → Engine → Level → Except CountError (Engine × Level)
  | 0, _, _ => .error .outOfSteps
  | steps + 1, e, level => do
    match ← (e.nextComponent level).mapError .engine with
    | (false, e, level) => return (e, level)
    | (true, e, level) =>
      let (n, e) ← solve e level.current
      let e ← (e.storeCount level.current n).mapError .engine
      countLevel solve steps e (level.times n).next

/-- Counts one branch of a level: the branch literal is made true, what it leads to is counted, and
the engine is put back to where it was. -/
def countBranch (solve : Engine → Nat → Except CountError (Nat × Engine)) (clauses : List (List Lit))
    (e : Engine) (level : Level) (l : Lit) : Except CountError (Engine × Level) := do
  let e ← (e.assign l).mapError .engine
  let p := e.assignment.propagate clauses [l.var]
  let e := { e with assignment := p.assignment }
  let (e, level) ←
    if p.consistent then e.countLevel solve (e.varCount + 1) level else pure (e, level.times 0)
  let e := e.release level
  return ({ e with assignment := e.assignment.clearAll p.trail }, level.resetRemaining)

/-- Counts the component at a position of the stack, branching at most `depth` times in a row. -/
def countComponent (clauses : List (List Lit)) : Nat → Engine → Nat → Except CountError (Nat × Engine)
  | 0, _, _ => .error .outOfSteps
  | depth + 1, e, index => do
    let c ← (e.component index).mapError .engine
    match e.branchVar c.vars with
    | none => return (1, e)
    | some v =>
      let level := Level.new index e.stack.size
      let solve := countComponent clauses depth
      let (e, level) ← e.countBranch solve clauses level (v.lit true)
      let (e, level) ← e.countBranch solve clauses level.changeBranch (v.lit false)
      return (level.total, e)

/-- Counts the models of a formula that was loaded with these clauses. -/
def countRoot (e : Engine) (clauses : List (List Lit)) : Except CountError (Nat × Engine) := do
  let p := e.assignment.propagate clauses []
  let e := { e with assignment := p.assignment }
  if p.consistent then
    let level ← (e.rootLevel).mapError .engine
    let (e, level) ← e.countLevel (countComponent clauses (e.varCount + 1)) (e.varCount + 1) level
    return (level.total, e)
  else return (0, e)

end Engine

/-! ## Counters -/

/-- A formula loaded for counting: an engine, the clauses that propagation goes through, and whether
one of them is empty. -/
structure Counter where
  engine : Engine
  clauses : List (List Lit)
  hasEmpty : Bool

namespace Counter

/-- Loads a formula into an engine. -/
def ofCnf (e : Engine) (f : Cnf) : Except EngineError Counter := do
  let formula := Formula.ofCnf f
  return { engine := ← e.load formula, clauses := f.distinctClauses, hasEmpty := formula.hasEmpty }

def configure (c : Counter) (u : ConfigUpdate) : Counter := { c with engine := c.engine.configure u }

/-- The number of models of the formula. -/
def count (c : Counter) : Except CountError (Nat × Counter) := do
  if c.hasEmpty then return (0, c)
  let (n, engine) ← c.engine.countRoot c.clauses
  return (n, { c with engine })

end Counter

/-- The number of models, counted by decomposition under a configuration. -/
def Cnf.count (f : Cnf) (u : ConfigUpdate) : Except CountError Nat := do
  let c ← (Counter.ofCnf (Engine.new.configure u) f).mapError .engine
  return (← c.count).1

end ModelCount
