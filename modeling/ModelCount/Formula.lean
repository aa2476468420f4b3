/-
Formulas loaded for counting. A clause loses its repeated literals, a tautology is dropped, and
what is left is kept by length: unit clauses as literals, binary clauses as pairs, and clauses of
three or more literals as long clauses, whose ids are consecutive and start at 1.
-/
import ModelCount.Cnf
import ModelCount.Sorting

namespace ModelCount

/-- What a clause is once repeated literals are gone. -/
inductive ClauseShape
  | tautology
  | empty
  | unit (l : Lit)
  | binary (l m : Lit)
  | long (lits : List Lit)
  deriving DecidableEq, Repr

/-- Drops a literal that is equal to the one before it. -/
def dropRepeats : List Lit → List Lit
  | l :: m :: rest => if l = m then dropRepeats (m :: rest) else l :: dropRepeats (m :: rest)
  | lits => lits

/-- The literals of a clause in the order of their codes, each of them once. -/
def sortLits (clause : List Lit) : List Lit := dropRepeats (sortBy Lit.le clause)

/-- Whether some literal is followed by its negation, or the other way round. -/
def hasOpposites : List Lit → Bool
  | l :: m :: rest => l == m.negate || hasOpposites (m :: rest)
  | _ => false

/-- The sorted literals tell what a clause is: a literal and its negation are neighbours among them. A long clause
keeps its literals in the order of their first occurrences. -/
def ClauseShape.ofLits (clause : List Lit) : ClauseShape :=
  let sorted := sortLits clause
  if hasOpposites sorted then .tautology
  else match sorted with
    | [] => .empty
    | [l] => .unit l
    | [l, m] => .binary l m
    | _ => .long clause.eraseDups

/-- The literals that are kept of a clause. -/
def ClauseShape.lits : ClauseShape → List Lit
  | tautology => []
  | empty => []
  | unit l => [l]
  | binary l m => [l, m]
  | long lits => lits

/-! ## Sorted literals -/

theorem mem_dropRepeats {x : Lit} : ∀ lits : List Lit, x ∈ dropRepeats lits ↔ x ∈ lits
  | [] => Iff.rfl
  | [_] => Iff.rfl
  | l :: m :: rest => by
    rw [dropRepeats]
    split
    · rename_i h
      subst h
      rw [mem_dropRepeats (l :: rest)]
      simp
    · rw [List.mem_cons, mem_dropRepeats (m :: rest), ← List.mem_cons]

/-- Without repeats, sorted literals have increasing codes. -/
theorem dropRepeats_pairwise : ∀ {lits : List Lit}, lits.Pairwise (fun l m => l.code ≤ m.code) →
    (dropRepeats lits).Pairwise fun l m => l.code < m.code
  | [], _ => .nil
  | [_], _ => List.pairwise_singleton ..
  | l :: m :: rest, h => by
    obtain ⟨hl, hm⟩ := List.pairwise_cons.1 h
    have ih := dropRepeats_pairwise hm
    rw [dropRepeats]
    split
    · exact ih
    · rename_i hne
      refine List.pairwise_cons.2 ⟨fun x hx => ?_, ih⟩
      have hlm : l.code < m.code := Nat.lt_of_le_of_ne (hl m (List.mem_cons_self ..)) fun he => hne (Lit.code_inj.1 he)
      rcases List.mem_cons.1 ((mem_dropRepeats _).1 hx) with rfl | hx
      · exact hlm
      · exact Nat.lt_of_lt_of_le hlm ((List.pairwise_cons.1 hm).1 x hx)

theorem mem_sortLits {clause : List Lit} {l : Lit} : l ∈ sortLits clause ↔ l ∈ clause :=
  (mem_dropRepeats _).trans (sortBy_perm _ _).mem_iff

theorem sortLits_pairwise (clause : List Lit) : (sortLits clause).Pairwise fun l m => l.code < m.code := by
  refine dropRepeats_pairwise ((sortBy_pairwise (fun l m => ?_) (fun l m n hlm hmn => ?_) clause).imp of_decide_eq_true)
  · simpa [Lit.le] using Nat.le_total l.code m.code
  · exact decide_eq_true (Nat.le_trans (of_decide_eq_true hlm) (of_decide_eq_true hmn))

theorem opposites_of_hasOpposites : ∀ {lits : List Lit}, hasOpposites lits = true → ∃ l ∈ lits, l.negate ∈ lits
  | l :: m :: rest, h => by
    rw [hasOpposites, Bool.or_eq_true, beq_iff_eq] at h
    rcases h with rfl | h
    · exact ⟨m, by simp, by simp⟩
    · obtain ⟨p, hp, hn⟩ := opposites_of_hasOpposites h
      exact ⟨p, List.mem_cons_of_mem _ hp, List.mem_cons_of_mem _ hn⟩

/-- No code lies between those of a literal and its negation, so where codes increase the two are neighbours. -/
theorem hasOpposites_of_mem {p : Lit} (hp : p.positive = true) : ∀ {lits : List Lit},
    lits.Pairwise (fun l m => l.code < m.code) → p ∈ lits → p.negate ∈ lits → hasOpposites lits = true
  | [l], _, h, hn => by
    rw [List.mem_singleton] at h hn
    exact (p.negate_ne (hn.trans h.symm)).elim
  | l :: m :: rest, hsorted, h, hn => by
    obtain ⟨hl, hm⟩ := List.pairwise_cons.1 hsorted
    have hcode := Lit.code_negate hp
    rw [hasOpposites, Bool.or_eq_true, beq_iff_eq]
    rcases List.mem_cons.1 h with rfl | hmem
    · rcases List.mem_cons.1 hn with hn | hn
      · exact (p.negate_ne hn).elim
      · have hpm := hl m (List.mem_cons_self ..)
        rcases List.mem_cons.1 hn with rfl | hn
        · exact .inl p.negate_negate.symm
        · have := (List.pairwise_cons.1 hm).1 _ hn
          omega
    · rcases List.mem_cons.1 hn with rfl | hn
      · have := hl p hmem
        omega
      · exact .inr (hasOpposites_of_mem hp hm hmem hn)

/-- Comparing neighbours in the sorted clause finds every pair of opposite literals. -/
theorem hasOpposites_sortLits {clause : List Lit} :
    hasOpposites (sortLits clause) = true ↔ ∃ l ∈ clause, l.negate ∈ clause := by
  refine ⟨fun h => ?_, ?_⟩
  · obtain ⟨l, hl, hn⟩ := opposites_of_hasOpposites h
    exact ⟨l, mem_sortLits.1 hl, mem_sortLits.1 hn⟩
  · rintro ⟨l, hl, hn⟩
    cases hp : l.positive with
    | true => exact hasOpposites_of_mem hp (sortLits_pairwise clause) (mem_sortLits.2 hl) (mem_sortLits.2 hn)
    | false =>
      refine hasOpposites_of_mem (p := l.negate) (by simp [Lit.negate, hp]) (sortLits_pairwise clause)
        (mem_sortLits.2 hn) ?_
      rw [Lit.negate_negate]
      exact mem_sortLits.2 hl

theorem nodup_sortLits (clause : List Lit) : (sortLits clause).Nodup := by
  refine (sortLits_pairwise clause).imp fun {l m} h he => ?_
  rw [he] at h
  exact Nat.lt_irrefl _ h

theorem nodup_eraseDups : ∀ clause : List Lit, clause.eraseDups.Nodup
  | [] => by simp
  | l :: rest => by
    rw [List.eraseDups_cons]
    exact List.nodup_cons.2 ⟨fun h => by simp at h, nodup_eraseDups _⟩
  termination_by clause => clause.length
  decreasing_by exact Nat.lt_succ_of_le (List.length_filter_le ..)

/-- Dropping repeats after sorting and dropping them in the order of the clause keep the same literals. -/
theorem sortLits_perm (clause : List Lit) : (sortLits clause).Perm clause.eraseDups := by
  refine List.perm_iff_count.2 fun l => ?_
  rw [(nodup_sortLits clause).count, (nodup_eraseDups clause).count]
  simp only [mem_sortLits, List.mem_eraseDups]

/-- A clause that is no tautology has no two literals of one variable, once repeats are gone. -/
theorem nodup_vars {clause : List Lit} (h : ¬ hasOpposites (sortLits clause) = true) :
    ((sortLits clause).map Lit.var).Nodup := by
  rw [List.Nodup, List.pairwise_map]
  refine (nodup_sortLits clause).imp_of_mem fun {l m} hl hm hne hv => ?_
  rcases Lit.eq_or_eq_negate hv with rfl | rfl
  · exact hne rfl
  · exact h (hasOpposites_sortLits.2 ⟨m, mem_sortLits.1 hm, mem_sortLits.1 hl⟩)

namespace ClauseShape

theorem lits_of_tautology {clause : List Lit} (h : hasOpposites (sortLits clause) = true) :
    (ofLits clause).lits = [] := by
  rw [ofLits, if_pos h, lits]

/-- Of a clause that is no tautology each literal is kept once. -/
theorem lits_perm {clause : List Lit} (h : ¬ hasOpposites (sortLits clause) = true) :
    (ofLits clause).lits.Perm (sortLits clause) := by
  simp only [ofLits, if_neg h]
  split
  · rename_i he
    rw [he, lits]
  · rename_i he
    rw [he, lits]
  · rename_i he
    rw [he, lits]
  · exact (sortLits_perm clause).symm

theorem mem_of_mem_lits {clause : List Lit} {l : Lit} (hl : l ∈ (ofLits clause).lits) : l ∈ clause := by
  by_cases h : hasOpposites (sortLits clause) = true
  · rw [lits_of_tautology h] at hl
    cases hl
  · exact mem_sortLits.1 ((lits_perm h).mem_iff.1 hl)

theorem nodup_lits (clause : List Lit) : ((ofLits clause).lits.map Lit.var).Nodup := by
  by_cases h : hasOpposites (sortLits clause) = true
  · rw [lits_of_tautology h]
    exact .nil
  · exact ((lits_perm h).map _).nodup_iff.2 (nodup_vars h)

theorem ofLits_long {clause lits : List Lit} (h : ofLits clause = .long lits) :
    clause.eraseDups = lits ∧ 3 ≤ lits.length := by
  simp only [ofLits] at h
  split at h
  · cases h
  · split at h
    · cases h
    · cases h
    · cases h
    · rename_i h0 h1 h2
      cases h
      refine ⟨rfl, ?_⟩
      rw [← (sortLits_perm clause).length_eq]
      match he : sortLits clause with
      | [] => exact (h0 he).elim
      | [l] => exact (h1 l he).elim
      | [l, m] => exact (h2 l m he).elim
      | _ :: _ :: _ :: _ => simp

end ClauseShape

structure Formula where
  varCount : Nat := 0
  hasEmpty : Bool := false
  units : List Lit := []
  binaries : List (Lit × Lit) := []
  longs : List (List Lit) := []
  /-- No clause mentions a variable beyond the variable count. -/
  unit_le : ∀ l ∈ units, l.var.id ≤ varCount := by exact List.forall_mem_nil _
  binary_le : ∀ b ∈ binaries, b.1.var.id ≤ varCount ∧ b.2.var.id ≤ varCount := by exact List.forall_mem_nil _
  long_le : ∀ lits ∈ longs, ∀ l ∈ lits, l.var.id ≤ varCount := by exact List.forall_mem_nil _
  /-- The literals of a clause have distinct variables. -/
  binary_ne : ∀ b ∈ binaries, b.1.var ≠ b.2.var := by exact List.forall_mem_nil _
  long_nodup : ∀ lits ∈ longs, (lits.map Lit.var).Nodup := by exact List.forall_mem_nil _
  three_le : ∀ lits ∈ longs, 3 ≤ lits.length := by exact List.forall_mem_nil _
  deriving Repr

namespace Formula

instance : Inhabited Formula := ⟨{}⟩

def raiseVarCount (f : Formula) (n : Nat) : Formula :=
  { f with
    varCount := max f.varCount n
    unit_le := fun l hl => Nat.le_trans (f.unit_le l hl) (Nat.le_max_left ..)
    binary_le := fun b hb =>
      ⟨Nat.le_trans (f.binary_le b hb).1 (Nat.le_max_left ..), Nat.le_trans (f.binary_le b hb).2 (Nat.le_max_left ..)⟩
    long_le := fun c hc l hl => Nat.le_trans (f.long_le c hc l hl) (Nat.le_max_left ..) }

def addUnit (f : Formula) (l : Lit) (le : l.var.id ≤ f.varCount) : Formula :=
  { f with
    units := f.units ++ [l]
    unit_le := List.forall_mem_append.2 ⟨f.unit_le, List.forall_mem_singleton.2 le⟩ }

def addBinary (f : Formula) (l m : Lit) (le : l.var.id ≤ f.varCount ∧ m.var.id ≤ f.varCount)
    (ne : l.var ≠ m.var) : Formula :=
  { f with
    binaries := f.binaries ++ [(l, m)]
    binary_le := List.forall_mem_append.2 ⟨f.binary_le, List.forall_mem_singleton.2 le⟩
    binary_ne := List.forall_mem_append.2 ⟨f.binary_ne, List.forall_mem_singleton.2 ne⟩ }

def addLong (f : Formula) (lits : List Lit) (le : ∀ l ∈ lits, l.var.id ≤ f.varCount)
    (three : 3 ≤ lits.length) (nodup : (lits.map Lit.var).Nodup) : Formula :=
  { f with
    longs := f.longs ++ [lits]
    long_le := List.forall_mem_append.2 ⟨f.long_le, List.forall_mem_singleton.2 le⟩
    long_nodup := List.forall_mem_append.2 ⟨f.long_nodup, List.forall_mem_singleton.2 nodup⟩
    three_le := List.forall_mem_append.2 ⟨f.three_le, List.forall_mem_singleton.2 three⟩ }

/-- Raising the variable count for a clause makes room for each literal that is kept of it. -/
theorem le_raised (f : Formula) {clause : List Lit} {shape : ClauseShape} (h : ClauseShape.ofLits clause = shape)
    {l : Lit} (hl : l ∈ shape.lits) : l.var.id ≤ (f.raiseVarCount (maxVarId clause)).varCount :=
  Nat.le_trans (le_maxVarId (ClauseShape.mem_of_mem_lits (h ▸ hl))) (Nat.le_max_right ..)

/-- Every clause raises the variable count, also one that is dropped. -/
def addClause (f : Formula) (clause : List Lit) : Formula :=
  let g := f.raiseVarCount (maxVarId clause)
  match h : ClauseShape.ofLits clause with
  | .tautology => g
  | .empty => { g with hasEmpty := true }
  | .unit l => g.addUnit l (f.le_raised h (by simp [ClauseShape.lits]))
  | .binary l m =>
    g.addBinary l m ⟨f.le_raised h (by simp [ClauseShape.lits]), f.le_raised h (by simp [ClauseShape.lits])⟩
      (by simpa [h, ClauseShape.lits] using ClauseShape.nodup_lits clause)
  | .long lits =>
    g.addLong lits (fun _ hl => f.le_raised h hl) (ClauseShape.ofLits_long h).2
      (by simpa [h, ClauseShape.lits] using ClauseShape.nodup_lits clause)

def ofCnf (cnf : Cnf) : Formula :=
  cnf.clauses.foldl addClause (({} : Formula).raiseVarCount cnf.varCount)

/-- All variables in increasing order. Whoever goes through them with their ids checked takes `Var.upTo`. -/
def vars (f : Formula) : List Var := Var.firstN f.varCount

/-- The other literals of the binary clauses that contain `l`, in the order of the clauses. -/
def links (f : Formula) (l : Lit) : List Lit :=
  f.binaries.filterMap fun (a, b) => if a = l then some b else if b = l then some a else none

def clauseIds (f : Formula) : List ClauseId := ClauseId.firstN f.longs.length

/-- The long clauses with their ids. -/
def longClauses (f : Formula) : List (ClauseId × List Lit) := f.clauseIds.zip f.longs

/-- The number of literals in all long clauses. -/
def longLiteralCount (f : Formula) : Nat := f.longs.flatten.length

/-- The literals that occur in a binary clause, in the order of their codes. -/
def linkedLits (f : Formula) : List Lit :=
  (f.vars.flatMap fun v => [v.lit true, v.lit false]).filter fun l => !(f.links l).isEmpty

end Formula

end ModelCount
