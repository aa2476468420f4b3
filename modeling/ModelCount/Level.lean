/-
Decision levels. A level counts the models of one component, its super-component, by branching
once; each branch multiplies the counts of the components it falls into. The components found for
the active branch lie on the stack from `offset` up and are processed from the top.
-/

namespace ModelCount

/-- The product of the counts found in one branch so far. -/
structure Branch where
  count : Nat := 0
  unsat : Bool := false
  deriving DecidableEq, Repr

/-- Multiplies a count into the branch. The first one is taken as it is, and a zero makes the
branch unsatisfiable for good. -/
def Branch.times (b : Branch) (n : Nat) : Branch :=
  if b.unsat then b
  else if n = 0 then ⟨0, true⟩
  else if b.count = 0 then { b with count := n }
  else { b with count := b.count * n }

structure Level where
  superIndex : Nat
  offset : Nat
  unprocessedEnd : Nat
  first : Branch := {}
  second : Branch := {}
  inSecond : Bool := false
  deriving DecidableEq, Repr

namespace Level

def new (superIndex offset : Nat) : Level := { superIndex, offset, unprocessedEnd := offset }

/-! ## Components still to be processed -/

/-- The end is meant to be at `offset` or above it. Below, there is nothing to be processed. -/
def setEnd (l : Level) (n : Nat) : Level := { l with unprocessedEnd := n }

def hasUnprocessed (l : Level) : Bool := decide (l.offset < l.unprocessedEnd)

/-- The stack position of the component to be processed next. It is meant for a level with such a component;
`hasUnprocessed` is asked first. -/
def current (l : Level) : Nat := l.unprocessedEnd - 1

/-- Goes on to the component below. Like `current` it is meant for a level with a component to be processed. On
another level the end goes down as well, and stays at 0. -/
def next (l : Level) : Level := { l with unprocessedEnd := l.unprocessedEnd - 1 }

def resetRemaining (l : Level) : Level := { l with unprocessedEnd := l.offset }

/-! ## Counts -/

def active (l : Level) : Branch := if l.inSecond then l.second else l.first

def times (l : Level) (n : Nat) : Level :=
  if l.inSecond then { l with second := l.second.times n }
  else { l with first := l.first.times n }

/-- Notes the outcome of one search: without a component there is an isolated variable, which may
have either value. -/
def noteSearch (l : Level) (found : Bool) : Level := if found then l else l.times 2

def foundUnsat (l : Level) : Bool := l.active.unsat

/-- Goes from the first branch to the second one. On a level in its second branch it changes nothing. -/
def changeBranch (l : Level) : Level := { l with inSecond := true }

/-- The models of both branches together. -/
def total (l : Level) : Nat := l.first.count + l.second.count

end Level

end ModelCount
