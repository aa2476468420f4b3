/-
Counting by trying every total assignment. It takes formulas of a few variables only.
-/
import ModelCount.Cnf

namespace ModelCount

/-- The assignment whose true variables are the positions of the one bits of `n`. -/
def bitAssignment (n : Nat) (v : Var) : Bool := n.testBit v.index

namespace Cnf

/-- How many of the assignments with the numbers below `n` satisfy the formula. -/
def countBelow (f : Cnf) : Nat → Nat → Nat
  | 0, count => count
  | n + 1, count => f.countBelow n (if f.satisfiedBy (bitAssignment n) then count + 1 else count)

/-- The most variables that enumeration accepts. -/
def enumerationLimit : Nat := 20

/-- A formula with too many variables to be enumerated. -/
structure TooManyVariables where
  varCount : Nat
  deriving DecidableEq, Repr

def TooManyVariables.message (_ : TooManyVariables) : String :=
  "too many variables for brute force counting"

/-- The number of models, if the formula is small enough. -/
def enumerate (f : Cnf) : Except TooManyVariables Nat :=
  if f.varCount ≤ enumerationLimit then .ok (f.countBelow (1 <<< f.varCount) 0)
  else .error ⟨f.varCount⟩

end Cnf

end ModelCount
