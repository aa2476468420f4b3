/-
A whole pass: the variables of the super-component in order, with a search from each one that is
still unseen. What the searches find depends on the formula, the assignment and the super-component
alone; the state a pass starts from is overwritten.
-/
import ModelCount.Pass.Search

namespace ModelCount

/-- A component that a search found. -/
structure Found where
  component : Component
  /-- What the cache is asked for. -/
  view : Component
  /-- The variables in the order the search reached them. -/
  reached : List Var
  deriving DecidableEq, Repr

/-- The outcome of a pass. -/
structure Split where
  isolated : List Var := []
  found : List Found := []
  pass : Pass
  deriving DecidableEq, Repr

namespace Pass

variable (adj : Adjacency) (a : Assignment)

/-- Searches from those of the given variables of `super` that are still unseen. -/
def splitFrom (super : Component) (p : Pass) : List Var → Split
  | [] => { pass := p }
  | v :: rest =>
    if p.varMark v ≠ .unseen then splitFrom super p rest
    else
      match p.explore adj a v with
      | (false, p) =>
        let s := splitFrom super p rest
        { s with isolated := v :: s.isolated }
      | (true, p) =>
        let (component, view, p') := p.takeComponent super
        let s := splitFrom super p' rest
        { s with found := ⟨component, view, p.worklist.toList⟩ :: s.found }

/-- Splits a component into what it falls into under the assignment. -/
def split (p : Pass) (super : Component) : Split :=
  splitFrom adj a super (p.begin a super) super.vars

end Pass

end ModelCount
