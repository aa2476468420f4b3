/-
Variables and clause ids. Both are dense ids that start at 1, so the id 0 is free to mean "none".
A variable's id leaves two bits of a 32-bit word free, which gives every literal a code in the word.
-/

namespace ModelCount

/-- Why a number denotes no variable, clause or literal. -/
inductive IdError
  | variableTooLarge (id : Nat)
  | variableReserved
  | clauseTooLarge (id : Nat)
  | clauseReserved
  | notALiteral (code : Nat)
  deriving DecidableEq, Repr

namespace IdError

def message : IdError → String
  | variableTooLarge id => s!"variable id {id} is too large"
  | variableReserved => "variable id 0 is reserved"
  | clauseTooLarge id => s!"clause id {id} is too large"
  | clauseReserved => "clause id 0 is reserved"
  | notALiteral code => s!"literal code {code} does not denote a variable"

end IdError

/-! ## Variables -/

/-- A variable, denoted by its id. `Var.ofId` refuses the ids past `Var.maxId`. -/
structure Var where
  id : Nat
  id_pos : 0 < id
  deriving DecidableEq, Repr

namespace Var

/-- The largest id a variable is given from outside. -/
def maxId : Nat := (1 <<< 30) - 1

def ofId (id : Nat) : Except IdError Var :=
  if id > maxId then .error (.variableTooLarge id)
  else if h : 0 < id then .ok ⟨id, h⟩
  else .error .variableReserved

def ofIndex (index : Nat) : Except IdError Var := ofId (index + 1)

/-- The position of the variable in a table with one cell per variable. -/
def index (v : Var) : Nat := v.id - 1

/-- The variables with the ids `1` to `n`, in increasing order. The ids are not checked, see `upTo`. -/
def firstN (n : Nat) : List Var := (List.range n).map fun i => ⟨i + 1, i.succ_pos⟩

/-- The same variables, if their ids are not too large. Otherwise the one after `maxId` is refused. -/
def upTo (n : Nat) : Except IdError (List Var) :=
  if maxId < n then .error (.variableTooLarge (maxId + 1)) else .ok (firstN n)

instance : ToString Var := ⟨fun v => toString v.id⟩

theorem ext_id {v w : Var} (h : v.id = w.id) : v = w := by
  cases v; cases w; simp_all

@[simp] theorem index_add_one (v : Var) : v.index + 1 = v.id := by
  have := v.id_pos; simp only [index]; omega

theorem index_inj {v w : Var} : v.index = w.index ↔ v = w :=
  ⟨fun h => ext_id (by rw [← index_add_one v, ← index_add_one w, h]), fun h => h ▸ rfl⟩

theorem index_lt_iff {n : Nat} {v : Var} : v.index < n ↔ v.id ≤ n := by
  rw [← Nat.succ_le_iff, Nat.succ_eq_add_one, v.index_add_one]

theorem mem_firstN {n : Nat} {v : Var} : v ∈ firstN n ↔ v.id ≤ n := by
  have := v.id_pos
  simp only [firstN, List.mem_map, List.mem_range]
  exact ⟨by rintro ⟨i, hi, rfl⟩; exact hi, fun h => ⟨v.index, by simp only [index]; omega, ext_id (by simp)⟩⟩

@[simp] theorem length_firstN (n : Nat) : (firstN n).length = n := by simp [firstN]

theorem nodup_firstN (n : Nat) : (firstN n).Nodup :=
  List.pairwise_map.2 (List.nodup_range.imp fun hne h => hne (Nat.succ.inj (congrArg id h)))

theorem firstN_succ (n : Nat) : firstN (n + 1) = firstN n ++ [⟨n + 1, n.succ_pos⟩] := by
  rw [firstN, List.range_succ, List.map_append]
  rfl

theorem ofId_id {v : Var} (h : v.id ≤ maxId) : ofId v.id = .ok v := by
  rw [ofId, if_neg (Nat.not_lt.2 h), dif_pos v.id_pos]

/-- Making one variable after the other comes to the first id that is too large, if there is one. -/
theorem mapM_ofIndex (n : Nat) : (List.range n).mapM ofIndex = upTo n := by
  induction n with
  | zero => rfl
  | succ n ih =>
    rw [List.range_succ, List.mapM_append, ih, List.mapM_cons, List.mapM_nil]
    by_cases hn : maxId < n
    · rw [upTo, upTo, if_pos hn, if_pos (Nat.lt_succ_of_lt hn)]
      rfl
    · rw [upTo, upTo, if_neg hn]
      by_cases hlast : maxId < n + 1
      · have he : n = maxId := by omega
        rw [if_pos hlast, ofIndex, ofId, if_pos hlast, he]
        rfl
      · have hid : ofIndex n = .ok ⟨n + 1, n.succ_pos⟩ := by
          rw [ofIndex, ofId, if_neg hlast, dif_pos n.succ_pos]
        rw [if_neg hlast, hid, firstN_succ]
        rfl

end Var

/-! ## Clause ids -/

/-- The id of a stored clause. `ClauseId.ofId` refuses ids that need more than 32 bits. -/
structure ClauseId where
  id : Nat
  id_pos : 0 < id
  deriving DecidableEq, Repr

namespace ClauseId

def maxId : Nat := (1 <<< 32) - 1

def ofId (id : Nat) : Except IdError ClauseId :=
  if id > maxId then .error (.clauseTooLarge id)
  else if h : 0 < id then .ok ⟨id, h⟩
  else .error .clauseReserved

def ofIndex (index : Nat) : Except IdError ClauseId := ofId (index + 1)

/-- The position of the clause in a table with one cell per clause. -/
def index (c : ClauseId) : Nat := c.id - 1

/-- The ids `1` to `n`, in increasing order. They are not checked: a formula whose links can be indexed has no
more than `maxId` long clauses. -/
def firstN (n : Nat) : List ClauseId := (List.range n).map fun i => ⟨i + 1, i.succ_pos⟩

instance : ToString ClauseId := ⟨fun c => "c" ++ toString c.id⟩

theorem ext_id {c d : ClauseId} (h : c.id = d.id) : c = d := by
  cases c; cases d; simp_all

@[simp] theorem index_add_one (c : ClauseId) : c.index + 1 = c.id := by
  have := c.id_pos; simp only [index]; omega

theorem index_inj {c d : ClauseId} : c.index = d.index ↔ c = d :=
  ⟨fun h => ext_id (by rw [← index_add_one c, ← index_add_one d, h]), fun h => h ▸ rfl⟩

theorem mem_firstN {n : Nat} {c : ClauseId} : c ∈ firstN n ↔ c.id ≤ n := by
  have := c.id_pos
  simp only [firstN, List.mem_map, List.mem_range]
  exact ⟨by rintro ⟨i, hi, rfl⟩; exact hi, fun h => ⟨c.index, by simp only [index]; omega, ext_id (by simp)⟩⟩

@[simp] theorem length_firstN (n : Nat) : (firstN n).length = n := by simp [firstN]

theorem nodup_firstN (n : Nat) : (firstN n).Nodup :=
  List.pairwise_map.2 (List.nodup_range.imp fun hne h => hne (Nat.succ.inj (congrArg id h)))

theorem ofId_id {c : ClauseId} (h : c.id ≤ maxId) : ofId c.id = .ok c := by
  rw [ofId, if_neg (Nat.not_lt.2 h), dif_pos c.id_pos]

end ClauseId

end ModelCount
