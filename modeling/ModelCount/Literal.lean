/-
Literals: a variable or its negation. A literal's code is twice its variable's id, plus one if it
is negative; literals are ordered by code, so a variable's two literals are neighbours.
-/
import ModelCount.Ident

namespace ModelCount

structure Lit where
  var : Var
  positive : Bool
  deriving DecidableEq, Repr

namespace Lit

/-- The literal written as a non-zero number, negative for a negated variable. -/
def ofDimacs (number : Int) : Except IdError Lit := do
  return ⟨← Var.ofId number.natAbs, decide (number > 0)⟩

def toDimacs (l : Lit) : Int := if l.positive then l.var.id else -l.var.id

/-- The codes 0 and 1 belong to the reserved id, so they denote no literal. -/
def ofCode (code : Nat) : Except IdError Lit :=
  if code < 2 then .error (.notALiteral code)
  else do return ⟨← Var.ofId (code / 2), code % 2 == 0⟩

def code (l : Lit) : Nat := 2 * l.var.id + if l.positive then 0 else 1

/-- The literal of the same variable with the opposite sign. -/
def negate (l : Lit) : Lit := ⟨l.var, !l.positive⟩

def negateIf (l : Lit) (flip : Bool) : Lit := if flip then l.negate else l

/-- Whether the literal holds when its variable has the given value. -/
def holds (l : Lit) (value : Bool) : Bool := value == l.positive

def le (l m : Lit) : Bool := decide (l.code ≤ m.code)

instance : ToString Lit := ⟨fun l => toString l.toDimacs⟩

theorem holds_iff {l : Lit} {b : Bool} : l.holds b = true ↔ b = l.positive := by simp [holds]

@[simp] theorem negate_negate (l : Lit) : l.negate.negate = l := by simp [negate]

@[simp] theorem var_negate (l : Lit) : l.negate.var = l.var := rfl

theorem negate_ne (l : Lit) : l.negate ≠ l := by
  intro h; have := congrArg Lit.positive h; cases hp : l.positive <;> simp [negate, hp] at this

theorem code_inj {l m : Lit} : l.code = m.code ↔ l = m := by
  refine ⟨fun h => ?_, fun h => h ▸ rfl⟩
  obtain ⟨v, p⟩ := l
  obtain ⟨w, q⟩ := m
  simp only [code] at h
  have hv : v = w := Var.ext_id (by cases p <;> cases q <;> simp at h <;> omega)
  subst hv
  cases p <;> cases q <;> simp at h <;> rfl

theorem code_negate {l : Lit} (h : l.positive = true) : l.negate.code = l.code + 1 := by simp [code, negate, h]

theorem eq_or_eq_negate {l m : Lit} (h : l.var = m.var) : l = m ∨ l = m.negate := by
  obtain ⟨v, p⟩ := l; obtain ⟨w, q⟩ := m
  cases h; cases p <;> cases q <;> simp [negate]

end Lit

/-- The literal of the variable with the given sign. -/
def Var.lit (v : Var) (positive : Bool) : Lit := ⟨v, positive⟩

end ModelCount
