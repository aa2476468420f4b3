/-
What can go wrong when components are packed into words and read back.
-/
import ModelCount.Ident

namespace ModelCount

inductive PackError
  | valueTooWide (value bits : Nat)
  | unexpectedEnd
  | invalidId (value : Nat)
  | tooManyIds (maxVar maxClause : Nat)
  /-- A number read back that no variable can have. -/
  | badId (reason : IdError)
  deriving DecidableEq, Repr

namespace PackError

def message : PackError → String
  | valueTooWide value bits => s!"Value {value} does not fit into {bits} bits"
  | unexpectedEnd => "Unexpected end of packed data"
  | invalidId value => s!"Packed data contains the invalid id {value}"
  | tooManyIds maxVar maxClause =>
    s!"Too many variables ({maxVar}) and clauses ({maxClause}) for packed components"
  | badId reason => reason.message

end PackError

end ModelCount
