/-
What loading makes of a formula. The loaded formula has the models of the clauses that were given, every
binary clause is linked from both of its literals, and the long clauses are the proper clauses with at least
three distinct literals, in their order, each of them with its literals where they occur first. The links of a
literal are those that the clauses, one after the other, enter at both of their literals.
-/
import Mathlib.Algebra.BigOperators.Group.List.Basic
import Mathlib.Algebra.Ring.Nat
import Mathlib.Data.List.Forall2
import ModelCount.Proofs.Adjacency
import ModelCount.Proofs.Counting.Clauses

namespace ModelCount

/-! ## Dropping repeats -/

/-- `lits` are the literals of `clause`, each of them once and where it occurs first. -/
structure FirstOccurrences (clause lits : List Lit) : Prop where
  mem_iff : ∀ l, l ∈ lits ↔ l ∈ clause
  nodup : lits.Nodup
  in_order : lits.Pairwise fun l m => clause.idxOf l < clause.idxOf m

/-- A filter keeps the order of the first occurrences of what it keeps. -/
theorem idxOf_lt_of_filter {p : Lit → Bool} {l m : Lit} (hl : p l = true) (hm : p m = true) :
    ∀ {lits : List Lit}, (lits.filter p).idxOf l < (lits.filter p).idxOf m → lits.idxOf l < lits.idxOf m
  | [], h => h
  | x :: rest, h => by
    by_cases hx : p x = true
    · rw [List.filter_cons_of_pos hx, List.idxOf_cons, List.idxOf_cons] at h
      rw [List.idxOf_cons, List.idxOf_cons]
      by_cases hxl : x == l <;> by_cases hxm : x == m <;> simp only [hxl, hxm, cond_true, cond_false] at h ⊢
      · omega
      · omega
      · omega
      · exact Nat.succ_lt_succ (idxOf_lt_of_filter hl hm (Nat.lt_of_succ_lt_succ h))
    · rw [List.filter_cons_of_neg hx] at h
      have hxl : x ≠ l := fun he => hx (he ▸ hl)
      have hxm : x ≠ m := fun he => hx (he ▸ hm)
      rw [List.idxOf_cons_ne _ hxl, List.idxOf_cons_ne _ hxm]
      exact Nat.succ_lt_succ (idxOf_lt_of_filter hl hm h)

theorem eraseDups_pairwise : ∀ clause : List Lit,
    clause.eraseDups.Pairwise fun l m => clause.idxOf l < clause.idxOf m
  | [] => by simp
  | l :: rest => by
    rw [List.eraseDups_cons]
    have ih := eraseDups_pairwise (rest.filter fun m => !m == l)
    have hne : ∀ {m}, m ∈ (rest.filter fun m => !m == l).eraseDups → m ≠ l := fun hm => by
      simpa using (List.mem_filter.1 (List.mem_eraseDups.1 hm)).2
    refine List.pairwise_cons.2 ⟨fun m hm => ?_, ih.imp_of_mem fun {m n} hm hn hlt => ?_⟩
    · rw [List.idxOf_cons_self, List.idxOf_cons_ne _ (hne hm).symm]
      exact Nat.succ_pos _
    · rw [List.idxOf_cons_ne _ (hne hm).symm, List.idxOf_cons_ne _ (hne hn).symm]
      exact Nat.succ_lt_succ (idxOf_lt_of_filter (by simpa using hne hm) (by simpa using hne hn) hlt)
  termination_by clause => clause.length
  decreasing_by exact Nat.lt_succ_of_le (List.length_filter_le ..)

theorem firstOccurrences_eraseDups (clause : List Lit) : FirstOccurrences clause clause.eraseDups :=
  ⟨fun _ => List.mem_eraseDups, nodup_eraseDups clause, eraseDups_pairwise clause⟩

theorem length_eraseDups (clause : List Lit) : clause.eraseDups.length = clause.toFinset.card := by
  rw [← List.toFinset_card_of_nodup (nodup_eraseDups clause)]
  refine congrArg Finset.card (Finset.ext fun l => ?_)
  rw [List.mem_toFinset, List.mem_toFinset, List.mem_eraseDups]

namespace Formula

/-! ## Links -/

section Links

variable {f : Formula}

/-- A new binary clause is appended to the links of its two literals and to no others. -/
theorem links_addBinary {l m : Lit} (le : l.var.id ≤ f.varCount ∧ m.var.id ≤ f.varCount) (ne : l.var ≠ m.var)
    (x : Lit) : (f.addBinary l m le ne).links x =
      f.links x ++ if l = x then [m] else if m = x then [l] else [] := by
  simp only [links, addBinary, List.filterMap_append]
  by_cases hl : l = x
  · simp [hl]
  · by_cases hm : m = x <;> simp [hl, hm]

/-- A literal is linked to another one once for each binary clause of the two. -/
theorem count_links (l m : Lit) :
    (f.links l).count m = f.binaries.countP fun b => decide (b = (l, m) ∨ b = (m, l)) := by
  rw [List.count, countP_links]
  refine List.countP_congr fun ⟨a, b⟩ _ => ?_
  simp [Prod.ext_iff, and_comm]

theorem count_links_comm (l m : Lit) : (f.links l).count m = (f.links m).count l := by
  simp only [count_links, or_comm]

theorem length_links (l : Lit) : (f.links l).length = f.binaries.countP fun b => decide (b.1 = l ∨ b.2 = l) := by
  rw [← List.countP_true, countP_links]
  simp

theorem links_of_lt {l : Lit} (h : f.varCount < l.var.id) : f.links l = [] := by
  refine List.eq_nil_iff_forall_not_mem.2 fun m hm => ?_
  obtain ⟨b, hb, rfl | ⟨-, rfl⟩⟩ := mem_links.1 hm
  · exact absurd (f.binary_le _ hb).1 (Nat.not_le.2 h)
  · exact absurd (f.binary_le _ hb).2 (Nat.not_le.2 h)

/-- The literals of all variables. -/
def literals (f : Formula) : List Lit := f.vars.flatMap fun v => [v.lit true, v.lit false]

theorem mem_literals {l : Lit} : l ∈ f.literals ↔ l.var.id ≤ f.varCount := by
  simp only [literals, vars, List.mem_flatMap, Var.mem_firstN]
  constructor
  · rintro ⟨v, hv, hl⟩
    simp only [Var.lit, List.mem_cons, List.not_mem_nil, or_false] at hl
    rcases hl with rfl | rfl <;> exact hv
  · obtain ⟨v, p⟩ := l
    exact fun h => ⟨v, h, by cases p <;> simp [Var.lit]⟩

theorem nodup_literals (f : Formula) : f.literals.Nodup := by
  refine List.nodup_flatMap.2 ⟨fun v _ => by simp [Var.lit], ?_⟩
  refine (Var.nodup_firstN f.varCount).imp fun {v w} hne l hv hw => hne ?_
  have hvar : ∀ {u : Var}, l ∈ [u.lit true, u.lit false] → l.var = u := fun hu => by
    rcases List.mem_pair.1 hu with rfl | rfl <;> rfl
  exact (hvar hv).symm.trans (hvar hw)

/-- Of the literals of all variables, a binary clause has two. -/
theorem countP_literals {b : Lit × Lit} (h : b ∈ f.binaries) :
    f.literals.countP (fun l => decide (b.1 = l ∨ b.2 = l)) = 2 := by
  have hne : b.1 ≠ b.2 := fun he => f.binary_ne b h (congrArg Lit.var he)
  have hperm : (f.literals.filter fun l => decide (b.1 = l ∨ b.2 = l)).Perm [b.1, b.2] := by
    refine (List.perm_ext_iff_of_nodup ((nodup_literals f).filter _) (by simpa using hne)).2 fun l => ?_
    rw [List.mem_filter, mem_literals, decide_eq_true_eq, List.mem_pair, eq_comm (a := l), eq_comm (a := l)]
    refine and_iff_right_of_imp ?_
    rintro (rfl | rfl)
    · exact (f.binary_le b h).1
    · exact (f.binary_le b h).2
  rw [List.countP_eq_length_filter, hperm.length_eq]
  rfl

/-- Every binary clause is linked from each of its two literals. -/
theorem sum_length_links (f : Formula) :
    (f.literals.map fun l => (f.links l).length).sum = 2 * f.binaries.length := by
  have hsum : ∀ bs : List (Lit × Lit), (∀ b ∈ bs, b ∈ f.binaries) →
      (f.literals.map fun l => bs.countP fun b => decide (b.1 = l ∨ b.2 = l)).sum = 2 * bs.length := by
    -- Clause by clause, since one clause adds to the links of just two of the literals.
    intro bs hbs
    induction bs with
    | nil => simp
    | cons b bs ih =>
      simp only [List.countP_cons, List.sum_map_add, Rows.sum_ite_eq_countP, List.length_cons]
      rw [ih fun c hc => hbs c (List.mem_cons_of_mem _ hc), countP_literals (hbs b (List.mem_cons_self ..)),
        Nat.mul_succ]
  simpa only [length_links] using hsum f.binaries fun _ => id

/-- What a clause of the shape adds to the links of the literal `x`. -/
def shapeLinks (x : Lit) : ClauseShape → List Lit
  | .binary l m => if l = x then [m] else if m = x then [l] else []
  | _ => []

theorem links_addClause (f : Formula) (clause : List Lit) (x : Lit) :
    (f.addClause clause).links x = f.links x ++ shapeLinks x (.ofLits clause) := by
  have hnone : ∀ {shape}, ClauseShape.ofLits clause = shape → shapeLinks x shape = [] →
      f.links x = f.links x ++ shapeLinks x (.ofLits clause) := by
    intro shape h hs
    rw [show shapeLinks x (.ofLits clause) = [] from (congrArg (shapeLinks x) h).trans hs, List.append_nil]
  unfold addClause
  dsimp only
  split
  · rename_i h
    exact hnone h rfl
  · rename_i h
    exact hnone h rfl
  · rename_i h
    exact hnone h rfl
  · rename_i h
    rw [links_addBinary]
    exact congrArg (f.links x ++ ·) (congrArg (shapeLinks x) h).symm
  · rename_i h
    exact hnone h rfl

/-- The links of a literal are in the order in which the clauses were given. -/
theorem links_ofCnf (cnf : Cnf) (x : Lit) :
    (ofCnf cnf).links x = cnf.clauses.flatMap fun c => shapeLinks x (.ofLits c) := by
  have hfold : ∀ (cs : List (List Lit)) (f : Formula), (cs.foldl addClause f).links x =
      f.links x ++ cs.flatMap fun c => shapeLinks x (.ofLits c) := by
    intro cs
    induction cs with
    | nil => intro f; simp
    | cons c cs ih =>
      intro f
      rw [List.foldl_cons, ih, links_addClause, List.append_assoc, List.flatMap_cons]
  exact hfold cnf.clauses _

end Links

/-! ## Long clauses -/

/-- A clause that is kept as a long one. -/
def IsLong (clause : List Lit) : Prop := ¬ Tautology clause ∧ 3 ≤ clause.toFinset.card

instance (clause : List Lit) : Decidable (IsLong clause) :=
  inferInstanceAs (Decidable (¬ Tautology clause ∧ 3 ≤ clause.toFinset.card))

/-- A clause is told to be long from its sorted literals, and keeps those in its own order. -/
theorem isLong_iff {clause : List Lit} : IsLong clause ↔ ClauseShape.ofLits clause = .long clause.eraseDups := by
  constructor
  · rintro ⟨htaut, hthree⟩
    rw [← length_eraseDups, ← (sortLits_perm clause).length_eq] at hthree
    simp only [ClauseShape.ofLits, if_neg (mt hasOpposites_sortLits.1 htaut)]
    split
    · rename_i he
      simp [he] at hthree
    · rename_i he
      simp [he] at hthree
    · rename_i he
      simp [he] at hthree
    · rfl
  · intro h
    refine ⟨fun htaut => ?_, length_eraseDups clause ▸ (ClauseShape.ofLits_long h).2⟩
    simp only [ClauseShape.ofLits, if_pos (hasOpposites_sortLits.2 htaut)] at h
    cases h

theorem longs_addClause (f : Formula) (clause : List Lit) :
    (f.addClause clause).longs = f.longs ++ if IsLong clause then [clause.eraseDups] else [] := by
  have hshort : ∀ {shape}, ClauseShape.ofLits clause = shape → shape ≠ .long clause.eraseDups → ¬ IsLong clause :=
    fun h hne hl => hne (h ▸ isLong_iff.1 hl)
  unfold addClause
  dsimp only
  split
  · rename_i h
    rw [if_neg (hshort h (by simp)), List.append_nil]
    rfl
  · rename_i h
    rw [if_neg (hshort h (by simp)), List.append_nil]
    rfl
  · rename_i h
    rw [if_neg (hshort h (by simp)), List.append_nil]
    rfl
  · rename_i h
    rw [if_neg (hshort h (by simp)), List.append_nil]
    rfl
  · rename_i h
    obtain ⟨rfl, -⟩ := ClauseShape.ofLits_long h
    rw [if_pos (isLong_iff.2 h)]
    rfl

/-- The long clauses are in the order in which they were given. -/
theorem longs_ofCnf (cnf : Cnf) :
    (ofCnf cnf).longs = (cnf.clauses.filter fun c => decide (IsLong c)).map List.eraseDups := by
  have hfold : ∀ (cs : List (List Lit)) (f : Formula), (cs.foldl addClause f).longs =
      f.longs ++ (cs.filter fun c => decide (IsLong c)).map List.eraseDups := by
    intro cs
    induction cs with
    | nil => intro f; simp
    | cons c cs ih =>
      intro f
      rw [List.foldl_cons, ih, longs_addClause, List.append_assoc, List.filter_cons]
      by_cases h : IsLong c <;> simp [h]
  exact hfold cnf.clauses _

theorem map_snd_longClauses (f : Formula) : f.longClauses.map Prod.snd = f.longs := by
  rw [longClauses, List.map_snd_zip]
  simp [clauseIds]

theorem map_id_longClauses (f : Formula) :
    f.longClauses.map (fun c => c.1.id) = List.range' 1 f.longs.length :=
  calc f.longClauses.map (fun c => c.1.id)
      = (f.longClauses.map Prod.fst).map ClauseId.id := List.map_map.symm
    _ = f.clauseIds.map ClauseId.id := by rw [map_fst_longClauses]
    _ = List.range' 1 f.longs.length := by
      rw [clauseIds, ClauseId.firstN, List.map_map, List.range'_eq_map_range]
      exact List.map_congr_left fun i _ => Nat.add_comm i 1

/-! ## What loading keeps -/

/-- What a total assignment has to do for the clauses of each length. -/
structure Holds (f : Formula) (value : Var → Bool) : Prop where
  not_empty : f.hasEmpty = false
  units : ∀ l ∈ f.units, l.holds (value l.var) = true
  links : ∀ l, ∀ m ∈ f.links l, l.holds (value l.var) = true ∨ m.holds (value m.var) = true
  longs : ∀ c ∈ f.longClauses, ∃ l ∈ c.2, l.holds (value l.var) = true

theorem holds_iff {f : Formula} {value : Var → Bool} : f.Holds value ↔
    f.hasEmpty = false ∧ ∀ c ∈ f.clauses, ∃ l ∈ c, l.holds (value l.var) = true := by
  constructor
  · rintro ⟨hempty, hunits, hlinks, hlongs⟩
    refine ⟨hempty, fun c hc => ?_⟩
    rcases mem_clauses.1 hc with ⟨l, hl, rfl⟩ | ⟨⟨l, m⟩, hb, rfl⟩ | hc
    · exact ⟨l, List.mem_singleton_self l, hunits l hl⟩
    · rcases hlinks l m (mem_links.2 ⟨_, hb, .inl rfl⟩) with h | h
      · exact ⟨l, by simp, h⟩
      · exact ⟨m, by simp, h⟩
    · obtain ⟨d, hd, rfl⟩ := exists_lits_of_mem hc
      exact hlongs (d, f.lits d) (mem_longClauses.2 ⟨hd, rfl⟩)
  · rintro ⟨hempty, hall⟩
    refine ⟨hempty, fun l hl => ?_, fun l m hm => ?_, fun ⟨c, lits⟩ hc => ?_⟩
    · obtain ⟨m, hm, h⟩ := hall [l] (mem_clauses.2 (.inl ⟨l, hl, rfl⟩))
      exact List.mem_singleton.1 hm ▸ h
    · obtain ⟨b, hb, hlm⟩ := mem_links.1 hm
      obtain ⟨x, hx, h⟩ := hall [b.1, b.2] (mem_clauses.2 (.inr (.inl ⟨b, hb, rfl⟩)))
      rcases hlm with rfl | ⟨-, rfl⟩ <;> rcases List.mem_pair.1 hx with rfl | rfl
      · exact .inl h
      · exact .inr h
      · exact .inr h
      · exact .inl h
    · obtain ⟨hid, rfl⟩ := mem_longClauses.1 hc
      exact hall _ (mem_clauses.2 (.inr (.inr (lits_mem hid))))

theorem holds_ofCnf {cnf : Cnf} {value : Var → Bool} :
    (ofCnf cnf).Holds value ↔ cnf.satisfiedBy value = true := by
  rw [holds_iff, Cnf.satisfiedBy_iff_distinct, Bool.eq_false_iff, Ne, hasEmpty_ofCnf]
  by_cases hempty : [] ∈ cnf.distinctClauses
  · refine iff_of_false (fun h => h.1 hempty) fun hall => ?_
    obtain ⟨l, hl, -⟩ := hall [] hempty
    cases hl
  · rw [and_iff_right hempty]
    exact (listedIn_distinctClauses hempty).forall_holds value

/-- A loaded formula and the formula that was given. -/
structure Loads (cnf : Cnf) (f : Formula) : Prop where
  /-- The models are the same. -/
  holds_iff : ∀ value : Var → Bool, cnf.satisfiedBy value = true ↔ f.Holds value
  varCount : f.varCount = cnf.varCount
  /-- Links go both ways, and there are two of them for each binary clause. -/
  count_links_comm : ∀ l m, (f.links l).count m = (f.links m).count l
  sum_length_links : (f.literals.map fun l => (f.links l).length).sum = 2 * f.binaries.length
  links_of_lt : ∀ l : Lit, f.varCount < l.var.id → f.links l = []
  /-- The ids of the long clauses are consecutive. -/
  ids : f.longClauses.map (fun c => c.1.id) = List.range' 1 f.longClauses.length
  /-- The long clauses are the proper clauses with at least three distinct literals, in their order. -/
  longs : List.Forall₂ FirstOccurrences (cnf.clauses.filter fun c => decide (IsLong c))
    (f.longClauses.map Prod.snd)
  nodup_vars : ∀ c ∈ f.longClauses, (c.2.map Lit.var).Nodup

end Formula

end ModelCount
