/-
The adjacency index is exact. A variable's record of occurrences holds the ids of the long clauses with the
variable, each of them once and in increasing order. Its record of neighbours holds the other variable of every
binary clause with the variable, the clauses in which it is negative first. The records of one kind lie back to
back, in pools as large as the numbers of literals and links that are checked before the index is built.
-/
import ModelCount.Proofs.Adjacency
import ModelCount.Proofs.Loading

namespace ModelCount

/-! ## Counting binary clauses -/

/-- A binary clause of the literal `l` and a literal of the variable `w`. -/
def Joins (b : Lit × Lit) (l : Lit) (w : Var) : Prop := b.1 = l ∧ b.2.var = w ∨ b.2 = l ∧ b.1.var = w

/-- A binary clause of the two variables. -/
def JoinsVars (b : Lit × Lit) (v w : Var) : Prop := b.1.var = v ∧ b.2.var = w ∨ b.2.var = v ∧ b.1.var = w

instance (b : Lit × Lit) (l : Lit) (w : Var) : Decidable (Joins b l w) :=
  inferInstanceAs (Decidable (b.1 = l ∧ b.2.var = w ∨ b.2 = l ∧ b.1.var = w))

instance (b : Lit × Lit) (v w : Var) : Decidable (JoinsVars b v w) :=
  inferInstanceAs (Decidable (b.1.var = v ∧ b.2.var = w ∨ b.2.var = v ∧ b.1.var = w))

theorem joinsVars_comm {b : Lit × Lit} {v w : Var} : JoinsVars b v w ↔ JoinsVars b w v := by
  unfold JoinsVars
  rw [or_comm, and_comm, and_comm (a := b.1.var = v)]

theorem Lit.var_eq_iff {l : Lit} {v : Var} : l.var = v ↔ l = v.lit false ∨ l = v.lit true := by
  obtain ⟨u, p⟩ := l
  cases p <;> simp [Var.lit]

/-- In a clause of two different variables, each of them is either negative or positive. -/
theorem joinsVars_iff {b : Lit × Lit} (hne : b.1.var ≠ b.2.var) (v w : Var) :
    (JoinsVars b v w ↔ Joins b (v.lit false) w ∨ Joins b (v.lit true) w) ∧
    ¬ (Joins b (v.lit false) w ∧ Joins b (v.lit true) w) := by
  have hsign : v.lit false ≠ v.lit true := by simp [Var.lit]
  constructor
  · unfold JoinsVars Joins
    rw [Lit.var_eq_iff (v := v), Lit.var_eq_iff (l := b.2) (v := v), or_and_right, or_and_right]
    exact or_or_or_comm
  · rintro ⟨⟨h, -⟩ | ⟨h, -⟩, ⟨h', -⟩ | ⟨h', -⟩⟩
    · exact hsign (h.symm.trans h')
    · exact hne (by rw [h, h']; rfl)
    · exact hne (by rw [h, h']; rfl)
    · exact hsign (h.symm.trans h')

theorem countP_add_countP {α : Type} {p q r : α → Prop} [DecidablePred p] [DecidablePred q] [DecidablePred r]
    {xs : List α} (h : ∀ x ∈ xs, (r x ↔ p x ∨ q x) ∧ ¬ (p x ∧ q x)) :
    (xs.countP fun x => decide (p x)) + (xs.countP fun x => decide (q x)) = xs.countP fun x => decide (r x) := by
  induction xs with
  | nil => rfl
  | cons x xs ih =>
    rw [List.forall_mem_cons] at h
    obtain ⟨⟨hr, hpq⟩, hxs⟩ := h
    rw [List.countP_cons, List.countP_cons, List.countP_cons, ← ih hxs]
    by_cases hp : p x <;> by_cases hq : q x <;> simp_all <;> omega

namespace Adjacency

variable {f : Formula}

theorem count_map_var_links (l : Lit) (w : Var) :
    ((f.links l).map Lit.var).count w = f.binaries.countP fun b => decide (Joins b l w) := by
  rw [List.count, List.countP_map, Formula.countP_links]
  refine List.countP_congr fun b _ => ?_
  rw [decide_eq_true_eq, decide_eq_true_eq]
  simp only [Joins, Function.comp_apply, beq_iff_eq]

/-- A variable lists another one once for each binary clause of the two. -/
theorem count_neighboursOf {v : Var} (hv : v.id ≤ f.varCount) (w : Var) :
    ((ofFormula f).neighboursOf v).count w = f.binaries.countP fun b => decide (JoinsVars b v w) := by
  rw [neighboursOf_ofFormula hv, List.count_append, count_map_var_links, count_map_var_links]
  exact countP_add_countP fun b hb => joinsVars_iff (f.binary_ne b hb) v w

/-! ## Sizes of the pools -/

theorem size_pool_ofLists {α : Type} (rows : List (List α)) : (Rows.ofLists rows).pool.size = rows.flatten.length := by
  rw [← Array.length_toList, (Rows.tiles_ofLists rows).pool]

/-- The pool of neighbours has two places for each binary clause. -/
theorem size_neighbours_pool (f : Formula) : (ofFormula f).neighbours.pool.size = 2 * f.binaries.length := by
  rw [neighbours_ofFormula, size_pool_ofLists, ← f.sum_length_links, List.length_flatten, List.map_map,
    Formula.literals, List.map_flatMap, List.flatMap_def, List.sum_flatten, List.map_map]
  exact congrArg List.sum (List.map_congr_left fun v _ => by simp [Nat.add_comm])

/-- The pool of occurrences has a place for each literal of a long clause. -/
theorem size_occurrences_pool (f : Formula) : (ofFormula f).occurrences.pool.size = f.longLiteralCount := by
  rw [occurrences_ofFormula, size_pool_ofLists, Rows.length_flatten_rowsOf fun _ => lt_of_mem_occurrenceEntries,
    occurrenceEntries, List.length_flatMap, Formula.longLiteralCount, List.length_flatten, ← f.map_snd_longClauses,
    List.map_map]
  exact congrArg List.sum (List.map_congr_left fun c _ => by simp)

/-! ## What the index holds -/

theorem lits_through_header (c : ClauseId) {adj : Adjacency} :
    (adj.clauses.pool.toList.drop (adj.header c).offset).take (adj.header c).length = adj.lits c := by
  rw [lits, Rows.row, Array.toList_extract, List.extract_eq_take_drop]
  rfl

/-- What a formula's index holds: `adj` lists every occurrence and every link where it belongs, and nothing else. -/
structure Indexes (adj : Adjacency) (f : Formula) : Prop where
  varCount : adj.varCount = f.varCount
  clauseCount : adj.clauseCount = f.longs.length
  /-- The occurrences of a variable are the long clauses that have it, each of them once. -/
  occurrences_sorted : ∀ v ∈ f.vars, (adj.clausesOf v).Pairwise fun c d => c.id < d.id
  mem_occurrences : ∀ v ∈ f.vars, ∀ c, c ∈ adj.clausesOf v ↔
    ∃ lits, (c, lits) ∈ f.longClauses ∧ ∃ l ∈ lits, l.var = v
  /-- A variable's neighbours come from the clauses it is negative in, and then from those it is positive in. -/
  neighbours : ∀ v ∈ f.vars, ∃ negative positive, adj.neighboursOf v = negative ++ positive ∧
    ∀ w, negative.count w = (f.binaries.countP fun b => decide (Joins b (v.lit false) w)) ∧
      positive.count w = f.binaries.countP fun b => decide (Joins b (v.lit true) w)
  count_neighbours : ∀ v ∈ f.vars, ∀ w,
    (adj.neighboursOf v).count w = f.binaries.countP fun b => decide (JoinsVars b v w)
  count_neighbours_comm : ∀ v ∈ f.vars, ∀ w ∈ f.vars, (adj.neighboursOf v).count w = (adj.neighboursOf w).count v
  /-- A clause is read through its header, which shows its first two literals. -/
  clauses : ∀ c lits, (c, lits) ∈ f.longClauses → adj.lits c = lits ∧
    (adj.clauses.pool.toList.drop (adj.header c).offset).take (adj.header c).length = lits
  watched : ∀ c lits, (c, lits) ∈ f.longClauses →
    ∃ l m rest, lits = l :: m :: rest ∧ (adj.header c).watched = [l, m]
  /-- The records tile both pools. -/
  neighbours_contiguous : adj.neighbours.Contiguous f.varCount
  occurrences_contiguous : adj.occurrences.Contiguous f.varCount
  neighbours_pool : adj.neighbours.pool.size = 2 * f.binaries.length
  occurrences_pool : adj.occurrences.pool.size = f.longLiteralCount

theorem clauseIds_pairwise (f : Formula) : f.clauseIds.Pairwise fun c d => c.id < d.id := by
  rw [Formula.clauseIds, ClauseId.firstN, List.pairwise_map]
  exact List.pairwise_lt_range.imp fun h => Nat.succ_lt_succ h

theorem indexes_ofFormula (f : Formula) : (ofFormula f).Indexes f := by
  have hle : ∀ {v}, v ∈ f.vars → v.id ≤ f.varCount := Var.mem_firstN.1
  refine ⟨varCount_ofFormula, clauseCount_ofFormula, fun v hv => ?_, fun v hv c => ?_, fun v hv => ?_,
    fun v hv => count_neighboursOf (hle hv), fun v hv w hw => ?_, fun c lits hc => ?_, fun c lits hc => ?_, ?_, ?_,
    size_neighbours_pool f, size_occurrences_pool f⟩
  · rw [clausesOf_ofFormula (hle hv)]
    exact (clauseIds_pairwise f).filter _
  · rw [mem_clausesOf (hle hv)]
    constructor
    · exact fun h => ⟨f.lits c, Formula.mem_longClauses.2 ⟨h.mem_clauseIds, rfl⟩, h⟩
    · rintro ⟨lits, hc, hl⟩
      obtain ⟨-, rfl⟩ := Formula.mem_longClauses.1 hc
      exact hl
  · exact ⟨_, _, neighboursOf_ofFormula (hle hv), fun w => ⟨count_map_var_links .., count_map_var_links ..⟩⟩
  · rw [count_neighboursOf (hle hv), count_neighboursOf (hle hw)]
    simp only [joinsVars_comm (v := v)]
  · obtain ⟨-, rfl⟩ := Formula.mem_longClauses.1 hc
    rw [lits_through_header]
    exact ⟨lits_ofFormula c, lits_ofFormula c⟩
  · obtain ⟨hid, rfl⟩ := Formula.mem_longClauses.1 hc
    have hthree := f.three_le _ (Formula.lits_mem hid)
    match he : f.lits c with
    | [] | [_] => simp [he] at hthree
    | l :: m :: rest => exact ⟨l, m, rest, rfl, by simp [header, watched, he]⟩
  · have h := Rows.contiguous_ofLists (f.vars.map fun v => (f.links (v.lit false) ++ f.links (v.lit true)).map Lit.var)
    rwa [← neighbours_ofFormula, List.length_map, Formula.vars, Var.length_firstN] at h
  · have h := Rows.contiguous_ofLists (Rows.rowsOf f.varCount (occurrenceEntries f))
    rwa [← occurrences_ofFormula, Rows.length_rowsOf] at h

/-- While the variables have ids and the pools are within their limit, the index is built, and it holds what the
formula says. -/
theorem build_indexes (f : Formula) (hvar : f.varCount ≤ Var.maxId) (hlong : f.longLiteralCount ≤ maxLinks)
    (hbinary : 2 * f.binaries.length ≤ maxLinks) : ∃ adj, build f = .ok adj ∧ adj.Indexes f :=
  ⟨_, build_eq_ok_iff.2 ⟨⟨hlong, hbinary, hvar⟩, rfl⟩, indexes_ofFormula f⟩

theorem build_indexes_small :
    let v (i : Nat) : Var := ⟨i + 1, i.succ_pos⟩
    let f : Formula := .ofCnf (.ofClauses [[(v 0).lit true, (v 1).lit false], [(v 2).lit true, (v 0).lit false],
      [(v 3).lit true, (v 0).lit false, (v 2).lit true], [(v 1).lit true, (v 2).lit false, (v 3).lit false]] 5)
    f.varCount ≤ Var.maxId ∧ f.longLiteralCount ≤ maxLinks ∧ 2 * f.binaries.length ≤ maxLinks ∧
      ∃ adj, build f = .ok adj ∧ adj.Indexes f := by
  intro v f
  have hvar : f.varCount ≤ Var.maxId := by decide +kernel
  have hlong : f.longLiteralCount ≤ maxLinks := by decide +kernel
  have hbinary : 2 * f.binaries.length ≤ maxLinks := by decide +kernel
  exact ⟨hvar, hlong, hbinary, build_indexes f hvar hlong hbinary⟩

/-- Small pools alone are not enough. With variables beyond the largest id the index is refused, for the first id
that is too large or, far beyond, for the size of a table. -/
theorem not_forall_build_indexes :
    let f (n : Nat) : Formula := .ofCnf (.ofClauses [] n)
    build (f (2 ^ 63 - 1)) = .error (.tooManyCounters (2 ^ 63 - 1)) ∧
      build (f (2 ^ 30)) = .error (.badId (.variableTooLarge (2 ^ 30))) ∧
      ¬ ∀ f : Formula, f.longLiteralCount ≤ maxLinks → 2 * f.binaries.length ≤ maxLinks →
        ∃ adj, build f = .ok adj ∧ adj.Indexes f := by
  intro f
  have hfar : build (f (2 ^ 63 - 1)) = .error (.tooManyCounters (2 ^ 63 - 1)) := by decide +kernel
  have hnext : build (f (2 ^ 30)) = .error (.badId (.variableTooLarge (2 ^ 30))) := by decide +kernel
  refine ⟨hfar, hnext, fun h => ?_⟩
  obtain ⟨adj, hadj, -⟩ := h (f (2 ^ 63 - 1)) (Nat.zero_le _) (Nat.zero_le _)
  rw [hfar] at hadj
  cases hadj

end Adjacency

end ModelCount
