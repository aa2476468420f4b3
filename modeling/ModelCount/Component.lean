/-
Components, the parts a formula falls into, and the stack of the components that are alive. The
root component is at the bottom of the stack; every pass pushes the components it found on top.
-/
import ModelCount.Ident
import ModelCount.Sorting

namespace ModelCount

/-- The number of a cache slot. Slot 0 is never used. An entry is referred to by a word of 32 bits, so a cache is
meant to have fewer than `2 ^ 32` slots; with more, slot `2 ^ 32` would be refused and those after it would be taken
for the first ones. -/
abbrev Slot := Nat

structure Component where
  vars : List Var
  clauses : List ClauseId
  /-- The cache entry that waits for the component's count. -/
  entry : Option Slot := none
  deriving DecidableEq, Repr

namespace Component

def varCount (c : Component) : Nat := c.vars.length

def clauseCount (c : Component) : Nat := c.clauses.length

/-- Whether the component may stand below the other one in its block of the stack. -/
def atLeast (c d : Component) : Bool := decide (d.varCount ≤ c.varCount)

end Component

/-- How the components of a block are arranged: larger ones come first, and for components of one
size every order is allowed. -/
structure BlockOrder where
  arrange : List Component → List Component
  perm : ∀ cs, (arrange cs).Perm cs
  descending : ∀ cs, (arrange cs).Pairwise fun c d => d.varCount ≤ c.varCount

namespace BlockOrder

/-- The order that leaves components of one size as they are. -/
def stable : BlockOrder where
  arrange := sortBy Component.atLeast
  perm := sortBy_perm _
  descending cs := by
    refine (sortBy_pairwise (fun c d => ?_) (fun c d e => ?_) cs).imp fun {c d} h => by
      simpa [Component.atLeast] using h
    · simp only [Component.atLeast, decide_eq_true_eq]; omega
    · simp only [Component.atLeast, decide_eq_true_eq]; omega

instance : Inhabited BlockOrder := ⟨stable⟩

end BlockOrder

structure ComponentStack where
  items : List Component := []
  deriving DecidableEq, Repr

namespace ComponentStack

instance : Inhabited ComponentStack := ⟨{}⟩

def size (s : ComponentStack) : Nat := s.items.length

def isEmpty (s : ComponentStack) : Bool := s.items.isEmpty

/-- The component at a position counted from the bottom. -/
def get? (s : ComponentStack) (i : Nat) : Option Component := s.items[i]?

def push (s : ComponentStack) (c : Component) : ComponentStack := ⟨s.items ++ [c]⟩

/-- The components from position `n` up, which are taken off, and the stack below them. -/
def drain (s : ComponentStack) (n : Nat) : List Component × ComponentStack :=
  (s.items.drop n, ⟨s.items.take n⟩)

/-- Sorts the block from position `start` up, largest component first. -/
def sortFrom (s : ComponentStack) (order : BlockOrder) (start : Nat) : ComponentStack :=
  ⟨s.items.take start ++ order.arrange (s.items.drop start)⟩

/-- Sorts the block, if it starts within the stack or right above it. -/
def sortFrom? (s : ComponentStack) (order : BlockOrder) (start : Nat) : Option ComponentStack :=
  if start ≤ s.size then some (s.sortFrom order start) else none

end ComponentStack

end ModelCount
