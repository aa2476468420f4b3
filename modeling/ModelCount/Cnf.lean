/-
Formulas in conjunctive normal form, clause by clause as they were given: repeated literals, empty
clauses and tautologies stay. A formula may have more variables than its clauses mention.
-/
import ModelCount.Literal

namespace ModelCount

structure Cnf where
  varCount : Nat := 0
  clauses : List (List Lit) := []
  /-- No clause mentions a variable beyond the variable count. -/
  var_le : ∀ c ∈ clauses, ∀ l ∈ c, l.var.id ≤ varCount := by simp
  deriving DecidableEq, Repr

/-- The largest variable id in a clause, or 0 for the empty one. -/
def maxVarId (clause : List Lit) : Nat := clause.foldr (fun l n => max l.var.id n) 0

theorem le_maxVarId {clause : List Lit} {l : Lit} (h : l ∈ clause) : l.var.id ≤ maxVarId clause := by
  induction clause with
  | nil => cases h
  | cons m rest ih =>
    simp only [maxVarId, List.foldr_cons]
    rcases List.mem_cons.1 h with rfl | h
    · exact Nat.le_max_left ..
    · exact Nat.le_trans (ih h) (Nat.le_max_right ..)

namespace Cnf

def empty : Cnf := {}

instance : Inhabited Cnf := ⟨empty⟩

/-- Makes room for variables that occur in no clause; the count never shrinks. -/
def raiseVarCount (f : Cnf) (n : Nat) : Cnf where
  varCount := max f.varCount n
  clauses := f.clauses
  var_le c hc l hl := Nat.le_trans (f.var_le c hc l hl) (Nat.le_max_left ..)

def addClause (f : Cnf) (clause : List Lit) : Cnf where
  varCount := max f.varCount (maxVarId clause)
  clauses := f.clauses ++ [clause]
  var_le c hc l hl := by
    rcases List.mem_append.1 hc with hc | hc
    · exact Nat.le_trans (f.var_le c hc l hl) (Nat.le_max_left ..)
    · cases List.mem_singleton.1 hc
      exact Nat.le_trans (le_maxVarId hl) (Nat.le_max_right ..)

/-- The clauses in order, over at least `n` variables. -/
def ofClauses (clauses : List (List Lit)) (n : Nat) : Cnf :=
  (clauses.foldl addClause empty).raiseVarCount n

/-! ## Meaning -/

/-- Whether a total assignment makes some literal of every clause true. -/
def satisfiedBy (f : Cnf) (value : Var → Bool) : Bool :=
  f.clauses.all fun c => c.any fun l => l.holds (value l.var)

/-! ## Text -/

/-- The clause as its literals in brackets, separated by commas. -/
def clauseText (clause : List Lit) : String := "[" ++ ", ".intercalate (clause.map toString) ++ "]"

instance : ToString Cnf where
  toString f := toString f.varCount ++ " vars [" ++ ", ".intercalate (f.clauses.map clauseText) ++ "]"

end Cnf

end ModelCount
