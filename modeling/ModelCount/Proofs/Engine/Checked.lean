/-
An engine that stops where its tables, its cache and its stack end. Every operation is the one of the engine
with checked accesses: what it refuses it refuses with the same error, and where it would go beyond a table,
a row, a slot, a word or the stack, it has no outcome at all. Positions that the operation asks for, such as
the one of a super-component, are no such accesses.
-/
import ModelCount.Engine.Decomposition
import ModelCount.Proofs.Cache.InBounds
import ModelCount.Proofs.Packing.InBounds
import ModelCount.Proofs.Pass.Checked

namespace ModelCount

/-! ## The index and the assignment -/

namespace Rows

variable {α : Type}

def countEntries? (count : Nat) (entries : List (Nat × α)) : Option (Table Nat) :=
  entries.foldlM (fun counts e => do counts.set? e.1 ((← counts.get? e.1) + 1)) (.replicate count 0)

def place? (s : Table Nat × Table α) (e : Nat × α) : Option (Table Nat × Table α) := do
  let (positions, pool) := s
  let position ← positions.get? e.1
  return (← positions.set? e.1 (position + 1), ← pool.set? position e.2)

def ofEntries? (count : Nat) (fill : α) (entries : List (Nat × α)) : Option (Rows α) := do
  let counts := (← countEntries? count entries).toList
  let starts := startsFrom 0 counts
  let positions : Table Nat := ⟨(starts.take count).toArray⟩
  let filled ← entries.foldlM place? (positions, .replicate (← starts[count]?) fill)
  return ofLengths counts filled.2.cells

end Rows

namespace Adjacency

/-- The first two literals of every long clause are looked at. -/
def ofFormula? (f : Formula) : Option Adjacency := do
  let occurrences ← Rows.ofEntries? f.varCount ⟨1, Nat.one_pos⟩ (occurrenceEntries f)
  guard (f.longs.all fun lits => 2 ≤ lits.length)
  return { ofFormula f with occurrences }

def build? (f : Formula) : Checked BuildError Adjacency := do
  requireLinks f.longLiteralCount
  requireLinks (2 * f.binaries.length)
  requireCounters f.varCount
  let _ ← (Var.upTo f.varCount).mapError BuildError.badId
  return ← ofFormula? f

end Adjacency

namespace Assignment

variable (a : Assignment)

def litValue? (l : Lit) : Option (Option Bool) := (a.values.get? l.var.index).map (·.map l.holds)

def set? (l : Lit) : Option Assignment := (a.values.set? l.var.index (some l.positive)).map Assignment.mk

def clear? (v : Var) : Option Assignment := (a.values.set? v.index none).map Assignment.mk

def assign? (l : Lit) : Checked OutOfRange Assignment := do
  a.require l.var
  return ← a.set? l

def unassign? (v : Var) : Checked OutOfRange Assignment := do
  a.require v
  return ← a.clear? v

def value? (l : Lit) : Checked OutOfRange (Option Bool) := do
  a.require l.var
  return ← a.litValue? l

end Assignment

/-! ## The engine -/

namespace Engine

section

variable (e : Engine)

def configure? (u : ConfigUpdate) : Option Engine := do
  let config := e.config.apply u
  return { e with config, cache := ← e.cache.setLimits? config }

def load? (f : Formula) : Checked EngineError Engine := do
  let adjacency ← (Adjacency.build? f).adapt .ofBuild
  let varCount := adjacency.varCount
  let clauseCount := adjacency.clauseCount
  let scheme ← (PackingScheme.ofMax varCount clauseCount).mapError EngineError.pack
  let root : Component := { vars := adjacency.vars, clauses := adjacency.clauseIds }
  let key ← (PackedKey.encode? scheme root).adapt .pack
  let cache := Cache.new scheme e.config
  let (entry, cache) ←
    if e.config.caching then do
      let (slot, cache) ← cache.store? key none
      pure (some slot, cache)
    else pure (none, cache)
  return {
    config := e.config
    order := e.order
    adjacency
    assignment := .empty varCount
    pass := .ofCounts varCount clauseCount
    cache
    stack := { items := [{ root with entry }] } }

def assign? (l : Lit) : Checked EngineError Engine := do
  return { e with assignment := ← (e.assignment.assign? l).adapt .ofOutOfRange }

def unassign? (v : Var) : Checked EngineError Engine := do
  return { e with assignment := ← (e.assignment.unassign? v).adapt .ofOutOfRange }

def value? (l : Lit) : Checked EngineError (Option Bool) := (e.assignment.value? l).adapt .ofOutOfRange

def score? (v : Var) : Checked EngineError Nat := do
  let _ ← (e.assignment.require v).mapError EngineError.ofOutOfRange
  return ← e.pass.scores.get? v.index

def beginPass? (level : Level) : Checked EngineError Engine := do
  let super ← e.superComponent level
  return { e with pass := ← e.pass.begin? e.assignment super }

end

def register? (parent : Option Slot) (state : Engine × Level) (f : Found) : Checked PackError (Engine × Level) := do
  let (e, level) := state
  let key ← PackedKey.encode? e.cache.scheme f.view
  match ← e.cache.answer? level key with
  | (true, level, cache) => return ({ e with cache }, level)
  | (false, level, cache) =>
    if cache.caching then
      let (slot, cache) ← cache.store? key parent
      return ({ e with cache, stack := e.stack.push { f.component with entry := some slot } }, level)
    else return ({ e with cache, stack := e.stack.push f.component }, level)

section

variable (e : Engine)

def decompose? (level : Level) : Checked EngineError (Engine × Level) := do
  let super ← e.superComponent level
  let start := e.stack.size
  let split ← e.pass.split? e.adjacency e.assignment super
  let level := split.isolated.foldl (fun l _ => l.noteSearch false) level
  let (e, level) ← (split.found.foldlM (register? super.entry) ({ e with pass := split.pass }, level)).adapt .pack
  return ({ e with stack := ← e.stack.sortFrom? e.order start }, level.setEnd e.stack.size)

def nextComponent? (level : Level) : Checked EngineError (Bool × Engine × Level) := do
  let _ ← e.superComponent level
  let (e, level) ← if e.stack.size ≤ level.offset then e.decompose? level else pure (e, level)
  if level.hasUnprocessed then return (true, e, level)
  else return (false, e, level.times 1)

def release? (level : Level) : Option Engine := do
  let (released, stack) := e.stack.drain level.offset
  return { e with stack, cache := ← (released.filterMap Component.entry).foldlM Cache.release? e.cache }

end

end Engine

end ModelCount
