/-
Residual formulas. What is left of a formula on a component is a list of clauses over its variables,
and its residual count is the number of truth assignments of these variables that satisfy them.
-/
import ModelCount.Component
import ModelCount.Proofs.Adjacency
import ModelCount.Proofs.Models

namespace ModelCount

namespace Formula

/-- What is left of the formula on a component: the binary clauses over its variables, and its long
clauses restricted to them. -/
def residual (f : Formula) (c : Component) : List (List Lit) :=
  (f.binaries.filter fun b => b.1.var ∈ c.vars ∧ b.2.var ∈ c.vars).map (fun b => [b.1, b.2]) ++
    c.clauses.map fun k => (f.lits k).filter fun l => l.var ∈ c.vars

/-- The number of models that a component has left. -/
def residualCount (f : Formula) (c : Component) : Nat := (models c.vars.toFinset (f.residual c)).card

/-- The residual formula depends on the variables and the clauses of the component alone. -/
theorem residual_congr {f : Formula} {c d : Component} (hv : c.vars = d.vars) (hk : c.clauses = d.clauses) :
    f.residual c = f.residual d ∧ f.residualCount c = f.residualCount d := by
  have h : f.residual c = f.residual d := by simp only [residual, hv, hk]
  exact ⟨h, by simp only [residualCount, h, hv]⟩

end Formula

end ModelCount
