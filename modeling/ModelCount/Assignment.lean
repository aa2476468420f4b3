/-
Partial assignments of the variables `1` to `n`. The checked operations refuse variables beyond
`n`; the plain ones take them as unassigned and leave them so.
-/
import ModelCount.Literal
import ModelCount.Table

namespace ModelCount

structure Assignment where
  values : Table (Option Bool)
  deriving DecidableEq, Repr

/-- A variable that the assignment has no place for. -/
structure Assignment.OutOfRange where
  id : Nat
  varCount : Nat
  deriving DecidableEq, Repr

namespace Assignment

instance : Inhabited Assignment := ⟨⟨default⟩⟩

/-- The assignment of `n` variables that assigns none of them. -/
def empty (n : Nat) : Assignment := ⟨.replicate n none⟩

def varCount (a : Assignment) : Nat := a.values.size

def toList (a : Assignment) : List (Option Bool) := a.values.toList

/-! ## Plain operations -/

def varValue (a : Assignment) (v : Var) : Option Bool := a.values.get v.index

/-- The truth value of a literal, if its variable has one. -/
def litValue (a : Assignment) (l : Lit) : Option Bool := (a.varValue l.var).map l.holds

def isTrue (a : Assignment) (l : Lit) : Bool := a.varValue l.var == some l.positive

def isActive (a : Assignment) (v : Var) : Bool := (a.varValue v).isNone

/-- Makes the literal true. -/
def set (a : Assignment) (l : Lit) : Assignment := ⟨a.values.set l.var.index (some l.positive)⟩

def clear (a : Assignment) (v : Var) : Assignment := ⟨a.values.set v.index none⟩

/-- Unassigns the variables one after the other. -/
def clearAll (a : Assignment) (vs : List Var) : Assignment := vs.foldl clear a

/-! ## Checked operations -/

def require (a : Assignment) (v : Var) : Except OutOfRange Unit :=
  if v.index < a.varCount then .ok () else .error ⟨v.id, a.varCount⟩

def assign (a : Assignment) (l : Lit) : Except OutOfRange Assignment := do
  a.require l.var
  return a.set l

def unassign (a : Assignment) (v : Var) : Except OutOfRange Assignment := do
  a.require v
  return a.clear v

def value (a : Assignment) (l : Lit) : Except OutOfRange (Option Bool) := do
  a.require l.var
  return a.litValue l

def litIsTrue (a : Assignment) (l : Lit) : Except OutOfRange Bool := do
  a.require l.var
  return a.isTrue l

def varIsActive (a : Assignment) (v : Var) : Except OutOfRange Bool := do
  a.require v
  return a.isActive v

/-! ## What the plain operations read and write -/

@[simp] theorem varCount_empty (n : Nat) : (empty n).varCount = n := by simp [empty, varCount]

@[simp] theorem varCount_set (a : Assignment) (l : Lit) : (a.set l).varCount = a.varCount := by
  simp [set, varCount]

@[simp] theorem varCount_clear (a : Assignment) (v : Var) : (a.clear v).varCount = a.varCount := by
  simp [clear, varCount]

theorem isActive_iff {a : Assignment} {v : Var} : a.isActive v = true ↔ a.varValue v = none := by
  simp [isActive]

theorem isTrue_iff {a : Assignment} {l : Lit} : a.isTrue l = true ↔ a.varValue l.var = some l.positive := by
  simp [isTrue]

/-- A literal of an unassigned variable is not true. -/
theorem isTrue_of_isActive {a : Assignment} {l : Lit} (h : a.isActive l.var = true) : a.isTrue l = false := by
  simp [isTrue, isActive_iff.1 h]

theorem varValue_empty (n : Nat) (v : Var) : (empty n).varValue v = none := by
  simp only [empty, varValue, Table.get_replicate]
  split <;> rfl

theorem varValue_set (a : Assignment) (l : Lit) (v : Var) :
    (a.set l).varValue v = if l.var = v ∧ v.index < a.varCount then some l.positive else a.varValue v := by
  simp only [varValue, set, Table.get_set, varCount]
  by_cases h : l.var = v <;> simp [h, Var.index_inj]

/-- Setting a literal of a variable within range. -/
theorem varValue_set_of_le {a : Assignment} {l : Lit} (h : l.var.id ≤ a.varCount) (v : Var) :
    (a.set l).varValue v = if v = l.var then some l.positive else a.varValue v := by
  rw [varValue_set]
  by_cases hv : v = l.var
  · subst hv; simp [Var.index_lt_iff.2 h]
  · simp [hv, Ne.symm hv]

theorem varValue_clear (a : Assignment) (v w : Var) :
    (a.clear v).varValue w = if v = w ∧ w.index < a.varCount then none else a.varValue w := by
  simp only [varValue, clear, Table.get_set, varCount]
  by_cases h : v = w <;> simp [h, Var.index_inj]

end Assignment

end ModelCount
