/-
The clauses of a loaded formula. What loading drops changes no model: repeated literals go, and a
tautology holds in any case. An empty clause is kept as a flag and leaves no model.
-/
import ModelCount.Counting.Propagation
import ModelCount.Formula
import ModelCount.Proofs.Models

namespace ModelCount

/-- A clause with a literal and its negation. -/
def Tautology (clause : List Lit) : Prop := ∃ l ∈ clause, l.negate ∈ clause

instance (clause : List Lit) : Decidable (Tautology clause) :=
  inferInstanceAs (Decidable (∃ l ∈ clause, l.negate ∈ clause))

theorem tautology_sortLits {clause : List Lit} : Tautology (sortLits clause) ↔ Tautology clause := by
  simp only [Tautology, mem_sortLits]

theorem Tautology.exists_holds {clause : List Lit} (h : Tautology clause) (value : Var → Bool) :
    ∃ l ∈ clause, l.holds (value l.var) = true := by
  obtain ⟨l, hl, hn⟩ := h
  by_cases hholds : value l.var = l.positive
  · exact ⟨l, hl, Lit.holds_iff.2 hholds⟩
  · exact ⟨l.negate, hn, Lit.holds_iff.2 (Bool.eq_not_of_ne hholds)⟩

namespace Formula

/-- All clauses of the formula that have literals. -/
def clauses (f : Formula) : List (List Lit) :=
  f.units.map (fun l => [l]) ++ f.binaries.map (fun b => [b.1, b.2]) ++ f.longs

theorem mem_clauses {f : Formula} {clause : List Lit} : clause ∈ f.clauses ↔
    (∃ l ∈ f.units, [l] = clause) ∨ (∃ b ∈ f.binaries, [b.1, b.2] = clause) ∨ clause ∈ f.longs := by
  simp [clauses]

theorem ne_nil_of_mem_clauses {f : Formula} {c : List Lit} (hc : c ∈ f.clauses) : c ≠ [] := by
  rcases mem_clauses.1 hc with ⟨l, -, rfl⟩ | ⟨b, -, rfl⟩ | hl
  · simp
  · simp
  · exact List.ne_nil_of_length_pos (Nat.zero_lt_of_lt (f.three_le c hl))

theorem var_le_of_mem_clauses {f : Formula} {c : List Lit} (hc : c ∈ f.clauses) {l : Lit} (hl : l ∈ c) :
    l.var.id ≤ f.varCount := by
  rcases mem_clauses.1 hc with ⟨m, hm, rfl⟩ | ⟨b, hb, rfl⟩ | hlong
  · rw [List.mem_singleton.1 hl]
    exact f.unit_le m hm
  · have := f.binary_le b hb
    simp only [List.mem_cons, List.not_mem_nil, or_false] at hl
    rcases hl with rfl | rfl
    · exact this.1
    · exact this.2
  · exact f.long_le c hlong l hl

/-! ## Adding a clause -/

theorem ofLits_eq_empty {clause : List Lit} : ClauseShape.ofLits clause = .empty ↔ sortLits clause = [] := by
  constructor
  · intro h
    simp only [ClauseShape.ofLits] at h
    split at h
    · cases h
    · split at h <;> first | assumption | cases h
  · intro h
    simp [ClauseShape.ofLits, h, hasOpposites]

theorem varCount_addClause (f : Formula) (clause : List Lit) :
    (f.addClause clause).varCount = max f.varCount (maxVarId clause) := by
  unfold addClause
  dsimp only
  split <;> rfl

theorem mem_clauses_addUnit (f : Formula) {l : Lit} (le : l.var.id ≤ f.varCount) {c : List Lit} :
    c ∈ (f.addUnit l le).clauses ↔ c ∈ f.clauses ∨ c = [l] := by
  simp only [mem_clauses, addUnit, List.mem_append, List.mem_singleton, or_and_right, exists_or, exists_eq_left,
    eq_comm (a := c)]
  simp only [or_assoc, or_comm, or_left_comm]

theorem mem_clauses_addBinary (f : Formula) {l m : Lit} (le : l.var.id ≤ f.varCount ∧ m.var.id ≤ f.varCount)
    (ne : l.var ≠ m.var) {c : List Lit} :
    c ∈ (f.addBinary l m le ne).clauses ↔ c ∈ f.clauses ∨ c = [l, m] := by
  simp only [mem_clauses, addBinary, List.mem_append, List.mem_singleton, or_and_right, exists_or, exists_eq_left,
    eq_comm (a := c)]
  simp only [or_comm, or_left_comm]

theorem mem_clauses_addLong (f : Formula) {lits : List Lit} (le : ∀ l ∈ lits, l.var.id ≤ f.varCount)
    (three : 3 ≤ lits.length) (nodup : (lits.map Lit.var).Nodup) {c : List Lit} :
    c ∈ (f.addLong lits le three nodup).clauses ↔ c ∈ f.clauses ∨ c = lits := by
  simp only [mem_clauses, addLong, List.mem_append, List.mem_singleton, or_assoc]

/-- Adding a clause keeps what is left of its literals, and notes an empty one. -/
theorem addClause_spec (f : Formula) (clause : List Lit) :
    ((f.addClause clause).hasEmpty = true ↔ f.hasEmpty = true ∨ sortLits clause = []) ∧
    ∀ c, c ∈ (f.addClause clause).clauses ↔ c ∈ f.clauses ∨ (c = (ClauseShape.ofLits clause).lits ∧ c ≠ []) := by
  have hkept : ∀ {d : List Lit}, d ≠ [] → ∀ c, c = d ↔ c = d ∧ c ≠ [] := by
    rintro d hd c
    exact (and_iff_left_of_imp fun h => h ▸ hd).symm
  rw [← ofLits_eq_empty]
  unfold addClause
  dsimp only
  split
  · rename_i h
    exact ⟨by simp [h, raiseVarCount], fun c => by simp [h, ClauseShape.lits, clauses, raiseVarCount]⟩
  · rename_i h
    exact ⟨by simp [h], fun c => by simp [h, ClauseShape.lits, clauses, raiseVarCount]⟩
  · rename_i l h
    refine ⟨by simp [h, addUnit, raiseVarCount], fun c => ?_⟩
    rw [mem_clauses_addUnit, h, ClauseShape.lits, ← hkept (by simp)]
    exact Iff.rfl
  · rename_i l m h
    refine ⟨by simp [h, addBinary, raiseVarCount], fun c => ?_⟩
    rw [mem_clauses_addBinary, h, ClauseShape.lits, ← hkept (by simp)]
    exact Iff.rfl
  · rename_i lits h
    have hne : lits ≠ [] := List.ne_nil_of_length_pos (Nat.zero_lt_of_lt (ClauseShape.ofLits_long h).2)
    refine ⟨by simp [h, addLong, raiseVarCount], fun c => ?_⟩
    rw [mem_clauses_addLong, h, ClauseShape.lits, ← hkept hne]
    exact Iff.rfl

/-- What is kept of a list of clauses added one after the other. -/
theorem foldl_addClause_spec (cs : List (List Lit)) : ∀ f : Formula,
    ((cs.foldl addClause f).hasEmpty = true ↔ f.hasEmpty = true ∨ [] ∈ cs.map sortLits) ∧
    (∀ c, c ∈ (cs.foldl addClause f).clauses ↔
      c ∈ f.clauses ∨ (c ∈ cs.map (fun clause => (ClauseShape.ofLits clause).lits) ∧ c ≠ [])) ∧
    ∀ n, (∀ c ∈ cs, ∀ l ∈ c, l.var.id ≤ n) → f.varCount = n → (cs.foldl addClause f).varCount = n := by
  induction cs with
  | nil => intro f; simp
  | cons clause cs ih =>
    intro f
    obtain ⟨hempty, hclauses⟩ := addClause_spec f clause
    obtain ⟨ihempty, ihclauses, ihcount⟩ := ih (f.addClause clause)
    rw [List.foldl_cons]
    refine ⟨?_, fun c => ?_, fun n hn hf => ihcount n (fun c hc => hn c (List.mem_cons_of_mem _ hc)) ?_⟩
    · rw [ihempty, hempty, List.map_cons, List.mem_cons, or_assoc, eq_comm (a := sortLits clause)]
    · rw [ihclauses, hclauses, List.map_cons, List.mem_cons, or_and_right, or_assoc]
    · have hle : maxVarId clause ≤ n := by
        have hall := hn clause (List.mem_cons_self ..)
        clear hn ihempty ihclauses ihcount hempty hclauses ih
        induction clause with
        | nil => exact Nat.zero_le _
        | cons l rest ih =>
          exact Nat.max_le.2 ⟨hall l (List.mem_cons_self ..), ih fun m hm => hall m (List.mem_cons_of_mem _ hm)⟩
      rw [varCount_addClause, hf, Nat.max_eq_left hle]

/-! ## Loading a formula -/

variable {f : Cnf}

@[simp] theorem varCount_ofCnf (f : Cnf) : (ofCnf f).varCount = f.varCount :=
  (foldl_addClause_spec f.clauses _).2.2 f.varCount f.var_le (Nat.max_eq_right (Nat.zero_le _))

theorem hasEmpty_ofCnf : (ofCnf f).hasEmpty = true ↔ [] ∈ f.distinctClauses := by
  refine (foldl_addClause_spec f.clauses _).1.trans ?_
  simp [raiseVarCount, Cnf.distinctClauses]

theorem mem_clauses_ofCnf {c : List Lit} :
    c ∈ (ofCnf f).clauses ↔ (∃ clause ∈ f.clauses, (ClauseShape.ofLits clause).lits = c) ∧ c ≠ [] := by
  refine ((foldl_addClause_spec f.clauses _).2.1 c).trans ?_
  simp [raiseVarCount, clauses]

/-- The clauses `cs` are those of the formula, up to the order of their literals, and tautologies. -/
structure ListedIn (f : Formula) (cs : List (List Lit)) : Prop where
  listed : ∀ c ∈ f.clauses, ∃ d ∈ cs, d.Perm c
  cases : ∀ d ∈ cs, Tautology d ∨ ∃ c ∈ f.clauses, d.Perm c

/-- Loading keeps the clauses that are no tautologies. -/
theorem listedIn_distinctClauses (h : [] ∉ f.distinctClauses) : (ofCnf f).ListedIn f.distinctClauses where
  listed c hc := by
    obtain ⟨⟨clause, hclause, rfl⟩, hne⟩ := mem_clauses_ofCnf.1 hc
    refine ⟨sortLits clause, List.mem_map_of_mem hclause, (ClauseShape.lits_perm fun ht => ?_).symm⟩
    exact hne (ClauseShape.lits_of_tautology ht)
  cases d hd := by
    obtain ⟨clause, hclause, rfl⟩ := List.mem_map.1 hd
    by_cases ht : hasOpposites (sortLits clause) = true
    · exact .inl (tautology_sortLits.2 (hasOpposites_sortLits.1 ht))
    · have hperm := ClauseShape.lits_perm ht
      refine .inr ⟨_, mem_clauses_ofCnf.2 ⟨⟨clause, hclause, rfl⟩, fun hnil => h ?_⟩, hperm.symm⟩
      rw [hnil] at hperm
      rwa [← List.nil_perm.1 hperm]

/-- Neither tautologies nor the order of literals matter to whether all clauses hold. -/
theorem ListedIn.forall_holds {f : Formula} {cs : List (List Lit)} (h : f.ListedIn cs) (value : Var → Bool) :
    (∀ c ∈ f.clauses, ∃ l ∈ c, l.holds (value l.var) = true) ↔
      ∀ d ∈ cs, ∃ l ∈ d, l.holds (value l.var) = true := by
  constructor
  · intro hall d hd
    rcases h.cases d hd with ht | ⟨c, hc, hperm⟩
    · exact ht.exists_holds value
    · obtain ⟨l, hl, hholds⟩ := hall c hc
      exact ⟨l, hperm.mem_iff.2 hl, hholds⟩
  · intro hall c hc
    obtain ⟨d, hd, hperm⟩ := h.listed c hc
    obtain ⟨l, hl, hholds⟩ := hall d hd
    exact ⟨l, hperm.mem_iff.1 hl, hholds⟩

end Formula

/-! ## Models of a formula -/

namespace Cnf

/-- The number of total assignments of the variables of the formula that satisfy every clause. -/
def modelCount (f : Cnf) : Nat :=
  ((Var.firstN f.varCount).toFinset.powerset.filter fun T => f.satisfiedBy fun v => decide (v ∈ T)).card

variable {f : Cnf}

theorem satisfiedBy_iff_distinct {value : Var → Bool} : f.satisfiedBy value = true ↔
    ∀ c ∈ f.distinctClauses, ∃ l ∈ c, l.holds (value l.var) = true := by
  simp only [satisfiedBy, distinctClauses, List.forall_mem_map, List.all_eq_true, List.any_eq_true]
  refine forall₂_congr fun c _ => exists_congr fun l => and_congr_left fun _ => ?_
  exact mem_sortLits.symm

theorem satisfiedBy_iff {T : Finset Var} :
    (f.satisfiedBy fun v => decide (v ∈ T)) = true ↔ ∀ c ∈ f.distinctClauses, Satisfies T c :=
  satisfiedBy_iff_distinct

theorem modelCount_of_mem_nil (h : [] ∈ f.distinctClauses) : f.modelCount = 0 := by
  rw [modelCount, Finset.card_eq_zero, Finset.filter_eq_empty_iff]
  intro T _ hT
  obtain ⟨l, hl, -⟩ := satisfiedBy_iff.1 hT [] h
  cases hl

/-- Without an empty clause, the models are those of the clauses that loading keeps. -/
theorem modelCount_eq (h : [] ∉ f.distinctClauses) :
    f.modelCount = (models (Var.firstN f.varCount).toFinset (Formula.ofCnf f).clauses).card := by
  rw [modelCount, models]
  refine congrArg Finset.card (Finset.filter_congr fun T _ => satisfiedBy_iff.trans ?_)
  exact ((Formula.listedIn_distinctClauses h).forall_holds fun v => decide (v ∈ T)).symm

end Cnf

end ModelCount
