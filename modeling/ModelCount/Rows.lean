/-
Rows of different lengths, stored back to back in one pool. Row `i` ends where row `i + 1` starts,
so consecutive rows tile the pool.
-/
import ModelCount.Table

namespace ModelCount

structure Rows (α : Type) where
  /-- The start of every row, and the end of the last one. -/
  starts : Array Nat
  pool : Array α
  deriving DecidableEq, Repr

namespace Rows

variable {α : Type}

def empty : Rows α := ⟨#[0], #[]⟩

instance : Inhabited (Rows α) := ⟨empty⟩

/-- The number of rows. -/
def size (r : Rows α) : Nat := r.starts.size - 1

/-- The position of the first element of row `i`. -/
def start (r : Rows α) (i : Nat) : Nat := r.starts.getD i r.pool.size

def push (r : Rows α) (row : List α) : Rows α :=
  ⟨r.starts.push (r.pool.size + row.length), r.pool ++ row⟩

def ofLists (rows : List (List α)) : Rows α := rows.foldl push empty

/-- Row `i`; there is nothing in a row that does not exist. -/
def row (r : Rows α) (i : Nat) : List α := (r.pool.extract (r.start i) (r.start (i + 1))).toList

def length (r : Rows α) (i : Nat) : Nat := r.start (i + 1) - r.start i

/-! ## Rows from their lengths -/

/-- Where rows of the given lengths start when they lie back to back, and where the last one ends. -/
def startsFrom (start : Nat) : List Nat → List Nat
  | [] => [start]
  | n :: lengths => start :: startsFrom (start + n) lengths

def ofLengths (lengths : List Nat) (pool : Array α) : Rows α := ⟨(startsFrom 0 lengths).toArray, pool⟩

/-- How many entries each of the first `count` rows has. -/
def countEntries (count : Nat) (entries : List (Nat × α)) : Table Nat :=
  entries.foldl (fun counts e => counts.modify e.1 (· + 1)) (.replicate count 0)

/-- Puts the entry where the position of its row is, and moves that position on. -/
def place (s : Table Nat × Table α) (e : Nat × α) : Table Nat × Table α :=
  let (positions, pool) := s
  let position := positions.get e.1
  (positions.set e.1 (position + 1), pool.set position e.2)

/-- Rows from entries that come with the index of their row. A first pass counts the entries of every row, which
gives the starts; a second one fills each row front to back. -/
def ofEntries (count : Nat) (fill : α) (entries : List (Nat × α)) : Rows α :=
  let counts := (countEntries count entries).toList
  let starts := startsFrom 0 counts
  let positions : Table Nat := ⟨(starts.take count).toArray⟩
  let filled := entries.foldl place (positions, .replicate (starts.getD count 0) fill)
  ofLengths counts filled.2.cells

end Rows

end ModelCount
