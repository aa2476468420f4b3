/-
The engine that a counting search drives: a loaded formula with its adjacency index, the current
assignment, the state of the last pass, the component cache and the stack of live components.
Every operation checks the ids and positions it is given.
-/
import ModelCount.Cache.Basic
import ModelCount.Pass.Split

namespace ModelCount

/-- Why an operation of the engine is refused. -/
inductive EngineError
  | pack (reason : PackError)
  | variableOutOfRange (id varCount : Nat)
  | componentOutOfRange (index size : Nat)
  | notInitialized
  | clausePoolTooLarge (length max : Nat)
  /-- The formula has more variables than a table has cells for. -/
  | tooManyCounters (length : Nat)
  /-- The formula has more variables than there are ids. -/
  | badId (reason : IdError)
  deriving DecidableEq, Repr

namespace EngineError

def message : EngineError → String
  | pack reason => "Could not pack component: " ++ reason.message
  | variableOutOfRange id varCount =>
    s!"Variable {id} is out of range for a formula with {varCount} variables"
  | componentOutOfRange index size =>
    s!"Component index {index} is out of range for a stack of {size} components"
  | notInitialized => "No formula was loaded"
  | clausePoolTooLarge length max => s!"Formula needs {length} clause links, at most {max} are supported"
  | tooManyCounters _ => "capacity overflow"
  | badId reason => reason.message

def ofOutOfRange (e : Assignment.OutOfRange) : EngineError := variableOutOfRange e.id e.varCount

def ofBuild : BuildError → EngineError
  | .tooManyLinks length => clausePoolTooLarge length Adjacency.maxLinks
  | .tooManyCounters length => tooManyCounters length
  | .badId reason => badId reason

end EngineError

structure Engine where
  config : Config := {}
  /-- How the components of a pass are arranged on the stack. -/
  order : BlockOrder := .stable
  adjacency : Adjacency := {}
  assignment : Assignment := default
  pass : Pass := {}
  cache : Cache := default
  stack : ComponentStack := {}

namespace Engine

/-- An engine without a formula. -/
def new : Engine := {}

instance : Inhabited Engine := ⟨new⟩

/-- Changes the configuration. The cache keeps its entries, as far as the new limit allows. -/
def configure (e : Engine) (u : ConfigUpdate) : Engine :=
  let config := e.config.apply u
  { e with config, cache := e.cache.setLimits config }

/-- Loads a formula. All variables are unassigned, and the stack holds the root component alone,
which has a cache entry if caching is on. -/
def load (e : Engine) (f : Formula) : Except EngineError Engine := do
  let adjacency ← (Adjacency.build f).mapError .ofBuild
  let varCount := adjacency.varCount
  let clauseCount := adjacency.clauseCount
  let scheme ← (PackingScheme.ofMax varCount clauseCount).mapError .pack
  let root : Component := { vars := adjacency.vars, clauses := adjacency.clauseIds }
  let key ← (PackedKey.encode scheme root).mapError .pack
  let cache := Cache.new scheme e.config
  let (entry, cache) :=
    if e.config.caching then
      let (slot, cache) := cache.store key none
      (some slot, cache)
    else (none, cache)
  return {
    config := e.config
    order := e.order
    adjacency
    assignment := .empty varCount
    pass := .ofCounts varCount clauseCount
    cache
    stack := { items := [{ root with entry }] } }

/-! ## Variables -/

def varCount (e : Engine) : Nat := e.assignment.varCount

/-- All variables of the engine in increasing order. -/
def vars (e : Engine) : List Var := Var.firstN e.varCount

def assign (e : Engine) (l : Lit) : Except EngineError Engine := do
  return { e with assignment := ← (e.assignment.assign l).mapError .ofOutOfRange }

def unassign (e : Engine) (v : Var) : Except EngineError Engine := do
  return { e with assignment := ← (e.assignment.unassign v).mapError .ofOutOfRange }

def value (e : Engine) (l : Lit) : Except EngineError (Option Bool) :=
  (e.assignment.value l).mapError .ofOutOfRange

/-- The score a variable got in the last pass that it took part in. -/
def score (e : Engine) (v : Var) : Except EngineError Nat := do
  (e.assignment.require v).mapError .ofOutOfRange
  return e.pass.score v

/-! ## Components -/

/-- The component at a position, if the stack has one there. -/
def live (e : Engine) (index : Nat) : Except EngineError Component :=
  match e.stack.get? index with
  | some c => .ok c
  | none => .error (.componentOutOfRange index e.stack.size)

/-- The component at a position of the stack of a loaded formula. -/
def component (e : Engine) (index : Nat) : Except EngineError Component :=
  if e.stack.isEmpty then .error .notInitialized else e.live index

/-- The component that a level splits. -/
def superComponent (e : Engine) (level : Level) : Except EngineError Component :=
  e.component level.superIndex

/-- The component of a level that is processed next. -/
def currentComponent (e : Engine) (level : Level) : Except EngineError Component :=
  if level.hasUnprocessed then e.component level.current
  else .error (.componentOutOfRange level.unprocessedEnd e.stack.size)

/-- The level that counts the whole formula. -/
def rootLevel (e : Engine) : Except EngineError Level :=
  if e.stack.isEmpty then .error .notInitialized else .ok (.new 0 1)

end Engine

end ModelCount
