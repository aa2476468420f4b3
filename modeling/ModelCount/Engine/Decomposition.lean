/-
Decomposition of a level's super-component. The isolated variables of the pass and the components
whose count is cached go into the count of the level, all other components onto the stack. When the
level is done, its components are taken off again.
-/
import ModelCount.Engine.Basic

namespace ModelCount

namespace Engine

/-- Begins a pass over the super-component of a level, and does nothing else. -/
def beginPass (e : Engine) (level : Level) : Except EngineError Engine := do
  let super ← e.superComponent level
  return { e with pass := e.pass.begin e.assignment super }

/-- What a pass over a component finds under the current assignment. -/
def passOver (e : Engine) (super : Component) : Split := e.pass.split e.adjacency e.assignment super

/-- Deals with a component that was found: a cached count is multiplied into the level, otherwise
the component is pushed, with a new cache entry if caching is on. `parent` is the entry of the
super-component. -/
def register (parent : Option Slot) (state : Engine × Level) (f : Found) :
    Except PackError (Engine × Level) := do
  let (e, level) := state
  let key ← PackedKey.encode e.cache.scheme f.view
  match e.cache.answer level key with
  | (true, level, cache) => return ({ e with cache }, level)
  | (false, level, cache) =>
    if cache.caching then
      let (slot, cache) := cache.store key parent
      return ({ e with cache, stack := e.stack.push { f.component with entry := some slot } }, level)
    else return ({ e with cache, stack := e.stack.push f.component }, level)

/-- Splits the super-component of a level. The components pushed are sorted so that the smallest
one is on top. -/
def decompose (e : Engine) (level : Level) : Except EngineError (Engine × Level) := do
  let super ← e.superComponent level
  let start := e.stack.size
  let split := e.passOver super
  let level := split.isolated.foldl (fun l _ => l.noteSearch false) level
  let (e, level) ←
    (split.found.foldlM (register super.entry) ({ e with pass := split.pass }, level)).mapError .pack
  return ({ e with stack := e.stack.sortFrom e.order start }, level.setEnd e.stack.size)

/-- Makes the next component of a level current, splitting the super-component if nothing of the
level is on the stack yet. When no component is left, the branch has one more model at least and
the answer is `false`. -/
def nextComponent (e : Engine) (level : Level) : Except EngineError (Bool × Engine × Level) := do
  let _ ← e.superComponent level
  let (e, level) ← if e.stack.size ≤ level.offset then e.decompose level else pure (e, level)
  if level.hasUnprocessed then return (true, e, level)
  else return (false, e, level.times 1)

/-- Takes the components of a level off the stack and lets go of their cache entries. -/
def release (e : Engine) (level : Level) : Engine :=
  let (released, stack) := e.stack.drain level.offset
  { e with stack, cache := (released.filterMap Component.entry).foldl Cache.release e.cache }

/-- Stores the count of the component at a position of the stack, while caching is on. -/
def storeCount (e : Engine) (index n : Nat) : Except EngineError Engine := do
  let c ← e.live index
  if e.config.caching then
    match c.entry with
    | some slot => return { e with cache := e.cache.storeCount slot n }
    | none => return e
  else return e

end Engine

end ModelCount
