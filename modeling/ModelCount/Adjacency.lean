/-
The adjacency index of a formula: for every variable the variables it shares a binary clause with
and the long clauses it occurs in, and for every long clause its literals. Each of the three lists
is a row, and the rows of one kind lie back to back.
-/
import ModelCount.Formula
import ModelCount.Rows

namespace ModelCount

structure Adjacency where
  neighbours : Rows Var := default
  occurrences : Rows ClauseId := default
  clauses : Rows Lit := default
  deriving DecidableEq, Repr

/-- Where a long clause lies in the pool of literals, and the literals a scan looks at first. -/
structure ClauseHeader where
  offset : Nat
  length : Nat
  watched : List Lit
  deriving DecidableEq, Repr

/-- Why a formula has no index. -/
inductive BuildError
  /-- More links of one kind than an index can address. -/
  | tooManyLinks (length : Nat)
  /-- More variables than a table of counters has cells for. -/
  | tooManyCounters (length : Nat)
  /-- More variables than there are ids. -/
  | badId (reason : IdError)
  deriving DecidableEq, Repr

namespace Adjacency

instance : Inhabited Adjacency := ⟨{}⟩

/-- The most links of one kind that an index addresses. -/
def maxLinks : Nat := (1 <<< 32) - 1

def requireLinks (length : Nat) : Except BuildError Unit :=
  if maxLinks < length then .error (.tooManyLinks length) else .ok ()

/-- The most cells of a table of counters. A counter takes eight bytes, and a table has less than `2 ^ 63` bytes. -/
def maxCounters : Nat := (1 <<< 60) - 1

def requireCounters (length : Nat) : Except BuildError Unit :=
  if maxCounters < length then .error (.tooManyCounters length) else .ok ()

/-- The occurrences of the long clauses, each with the index of its variable. -/
def occurrenceEntries (f : Formula) : List (Nat × ClauseId) :=
  f.longClauses.flatMap fun (c, lits) => lits.map fun l => (l.var.index, c)

/-- A variable's neighbours come first from the clauses it is negative in. The places that occurrences fill
hold the first clause id until then. -/
def ofFormula (f : Formula) : Adjacency where
  neighbours := .ofLengths
    (f.vars.map fun v => (f.links (v.lit false)).length + (f.links (v.lit true)).length)
    (f.vars.flatMap fun v => (f.links (v.lit false) ++ f.links (v.lit true)).map Lit.var).toArray
  occurrences := .ofEntries f.varCount ⟨1, Nat.one_pos⟩ (occurrenceEntries f)
  clauses := .ofLists f.longs

/-- The index of a formula that has neither too many links nor too many variables. The links are counted before any
table is made, and the variables are gone through with a counter for each. -/
def build (f : Formula) : Except BuildError Adjacency := do
  requireLinks f.longLiteralCount
  requireLinks (2 * f.binaries.length)
  requireCounters f.varCount
  let _ ← (Var.upTo f.varCount).mapError .badId
  return ofFormula f

/-- The largest id of a variable, which is the number of variables. -/
def varCount (adj : Adjacency) : Nat := adj.neighbours.size

/-- The largest id of a long clause, which is the number of long clauses. -/
def clauseCount (adj : Adjacency) : Nat := adj.clauses.size

def vars (adj : Adjacency) : List Var := Var.firstN adj.varCount

def clauseIds (adj : Adjacency) : List ClauseId := ClauseId.firstN adj.clauseCount

def neighboursOf (adj : Adjacency) (v : Var) : List Var := adj.neighbours.row v.index

def clausesOf (adj : Adjacency) (v : Var) : List ClauseId := adj.occurrences.row v.index

def lits (adj : Adjacency) (c : ClauseId) : List Lit := adj.clauses.row c.index

/-- The first two literals of a clause. -/
def watched (adj : Adjacency) (c : ClauseId) : List Lit := (adj.lits c).take 2

def header (adj : Adjacency) (c : ClauseId) : ClauseHeader :=
  ⟨adj.clauses.start c.index, adj.clauses.length c.index, adj.watched c⟩

end Adjacency

end ModelCount
