/-
Packed keys: a component as the words of its sorted ids, with a hash of the ids beside them. Keys
made with one scheme are equal when the components have the same ids.
-/
import ModelCount.Component
import ModelCount.Packing.Scheme

namespace ModelCount

structure PackedKey where
  words : Array UInt32
  hash : UInt32
  deriving DecidableEq, Repr

/-- The hash of a list of ids, in words that wrap around. -/
def hashIds (ids : List Nat) : UInt32 := ids.foldl (fun h id => h * 3 + UInt32.ofNat id) 0

/-- Mixes the hash of the clauses, turned by eleven bits, into the one of the variables. -/
def mixHash (vars clauses : UInt32) : UInt32 := vars + (clauses <<< 11) + (clauses >>> 21)

/-- Reads `n` ids of one width. -/
def readIds {α : Type} (make : Nat → Except IdError α) (bits : Nat) :
    Nat → BitReader → Except PackError (List α × BitReader)
  | 0, r => .ok ([], r)
  | n + 1, r => do
    let (value, r) ← r.read bits
    if value = 0 then throw (.invalidId value)
    let id ← (make value).mapError .badId
    let (ids, r) ← readIds make bits n r
    return (id :: ids, r)

namespace PackedKey

/-- The key of a component: the number of variables, the number of clauses, the variable ids and
the clause ids. -/
def encode (s : PackingScheme) (c : Component) : Except PackError PackedKey := do
  let vars := sortIds (c.vars.map Var.id)
  let clauses := sortIds (c.clauses.map ClauseId.id)
  let w ← ({} : BitWriter).write vars.length s.sizeBits
  let w ← w.write clauses.length s.sizeBits
  let w ← w.writeAll vars s.varBits
  let w ← w.writeAll clauses s.clauseBits
  return ⟨w.finish, mixHash (hashIds vars) (hashIds clauses)⟩

/-- The component that a key describes under a scheme, which need not be the one it was made with. -/
def decode (k : PackedKey) (s : PackingScheme) : Except PackError Component := do
  let r : BitReader := { words := k.words }
  let (varCount, r) ← r.read s.sizeBits
  let (clauseCount, r) ← r.read s.sizeBits
  let (vars, r) ← readIds Var.ofId s.varBits varCount r
  let (clauses, _) ← readIds ClauseId.ofId s.clauseBits clauseCount r
  return { vars, clauses }

def byteSize (k : PackedKey) : Nat := 4 * k.words.size

end PackedKey

end ModelCount
