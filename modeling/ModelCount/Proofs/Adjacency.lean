/-
What the adjacency index of a formula lists. The rows stored back to back are read off as they were
given, so the neighbours of a variable are the variables it shares a binary clause with, its
occurrences are the long clauses that mention it, and a clause id gives the literals of the clause.
-/
import ModelCount.Adjacency
import ModelCount.Proofs.Rows

namespace ModelCount

/-! ## The clauses of a formula -/

namespace Formula

/-- The literals of a long clause; an id that no clause has gives none. -/
def lits (f : Formula) (c : ClauseId) : List Lit := f.longs.getD c.index []

/-- A long clause has a literal of the variable. -/
def Mentions (f : Formula) (c : ClauseId) (v : Var) : Prop := ∃ l ∈ f.lits c, l.var = v

instance (f : Formula) (c : ClauseId) (v : Var) : Decidable (f.Mentions c v) :=
  inferInstanceAs (Decidable (∃ l ∈ f.lits c, l.var = v))

/-- Two variables occur together in a binary clause. -/
def Shares (f : Formula) (v w : Var) : Prop :=
  ∃ b ∈ f.binaries, (b.1.var = v ∧ b.2.var = w) ∨ (b.1.var = w ∧ b.2.var = v)

variable {f : Formula}

theorem shares_of_mem {l m : Lit} (h : (l, m) ∈ f.binaries ∨ (m, l) ∈ f.binaries) : f.Shares l.var m.var :=
  h.elim (fun h => ⟨_, h, .inl ⟨rfl, rfl⟩⟩) fun h => ⟨_, h, .inr ⟨rfl, rfl⟩⟩

theorem Shares.symm {v w : Var} (h : f.Shares v w) : f.Shares w v := by
  obtain ⟨b, hb, h⟩ := h
  exact ⟨b, hb, h.symm⟩

theorem Shares.ne {v w : Var} (h : f.Shares v w) : v ≠ w := by
  obtain ⟨b, hb, ⟨rfl, rfl⟩ | ⟨rfl, rfl⟩⟩ := h
  · exact f.binary_ne b hb
  · exact (f.binary_ne b hb).symm

theorem mem_clauseIds {c : ClauseId} : c ∈ f.clauseIds ↔ c.index < f.longs.length := by
  rw [clauseIds, ClauseId.mem_firstN, ← c.index_add_one]; exact Iff.rfl

theorem lits_eq {c : ClauseId} (h : c ∈ f.clauseIds) :
    f.lits c = f.longs.get ⟨c.index, mem_clauseIds.1 h⟩ := by
  simp [lits, List.getD_eq_getElem?_getD, mem_clauseIds.1 h]

theorem lits_mem {c : ClauseId} (h : c ∈ f.clauseIds) : f.lits c ∈ f.longs := by
  rw [lits_eq h]; exact List.get_mem _ _

theorem mem_clauseIds_of_lits {c : ClauseId} {l : Lit} (h : l ∈ f.lits c) : c ∈ f.clauseIds := by
  rw [mem_clauseIds]
  by_contra hc
  simp [lits, List.getD_eq_getElem?_getD, List.getElem?_eq_none (Nat.le_of_not_lt hc)] at h

theorem exists_lits_of_mem {lits : List Lit} (h : lits ∈ f.longs) : ∃ c ∈ f.clauseIds, f.lits c = lits := by
  obtain ⟨i, hi, rfl⟩ := List.getElem_of_mem h
  have hc : (⟨i + 1, i.succ_pos⟩ : ClauseId) ∈ f.clauseIds := mem_clauseIds.2 hi
  exact ⟨_, hc, lits_eq hc⟩

theorem Mentions.mem_clauseIds {c : ClauseId} {v : Var} (h : f.Mentions c v) : c ∈ f.clauseIds := by
  obtain ⟨l, hl, -⟩ := h
  exact mem_clauseIds_of_lits hl

theorem Mentions.id_le {c : ClauseId} {v : Var} (h : f.Mentions c v) : v.id ≤ f.varCount := by
  obtain ⟨l, hl, rfl⟩ := h
  exact f.long_le _ (lits_mem (mem_clauseIds_of_lits hl)) l hl

theorem Shares.id_le {v w : Var} (h : f.Shares v w) : v.id ≤ f.varCount ∧ w.id ≤ f.varCount := by
  obtain ⟨b, hb, ⟨rfl, rfl⟩ | ⟨rfl, rfl⟩⟩ := h
  · exact f.binary_le b hb
  · exact (f.binary_le b hb).symm

/-- A long clause mentions at least two variables. -/
theorem exists_mentions_ne {c : ClauseId} (h : c ∈ f.clauseIds) :
    ∃ v w, v ≠ w ∧ f.Mentions c v ∧ f.Mentions c w := by
  have hlen := f.three_le _ (lits_mem h)
  have hnd := f.long_nodup _ (lits_mem h)
  match he : f.lits c with
  | [] | [_] => simp [he] at hlen
  | l :: m :: rest =>
    rw [he] at hnd
    refine ⟨l.var, m.var, ?_, ⟨l, by simp [he], rfl⟩, ⟨m, by simp [he], rfl⟩⟩
    simp only [List.map_cons, List.nodup_cons, List.mem_cons, not_or] at hnd
    exact hnd.1.1

theorem mem_links {l m : Lit} : m ∈ f.links l ↔ ∃ b ∈ f.binaries, b = (l, m) ∨ (b.1 ≠ l ∧ b = (m, l)) := by
  simp only [links, List.mem_filterMap, Prod.exists]
  refine exists_congr fun a => exists_congr fun b => and_congr_right fun _ => ?_
  by_cases ha : a = l
  · simp [ha]
  · by_cases hb : b = l <;> simp [ha, hb]

/-- The links of a literal are the other literals of the binary clauses that have it. -/
theorem countP_links (l : Lit) (p : Lit → Bool) : (f.links l).countP p =
    f.binaries.countP fun b => decide (b.1 = l ∧ p b.2 = true ∨ b.2 = l ∧ p b.1 = true) := by
  rw [links, List.countP_filterMap]
  refine List.countP_congr fun ⟨a, b⟩ _ => ?_
  by_cases ha : a = l
  · have hswap : p b = true ∨ (b = l ∧ p l = true) ↔ p b = true := or_iff_left_of_imp fun ⟨hbl, hl⟩ => hbl ▸ hl
    simp [ha, hswap]
  · by_cases hb : b = l <;> simp [ha, hb]

theorem index_eq_of_getElem? {i : Nat} {c : ClauseId} (h : f.clauseIds[i]? = some c) : c.index = i := by
  simp only [clauseIds, ClauseId.firstN, List.getElem?_map, Option.map_eq_some_iff,
    List.getElem?_eq_some_iff] at h
  obtain ⟨j, ⟨_, hj⟩, rfl⟩ := h
  simp only [List.getElem_range] at hj
  simp [ClauseId.index, hj]

theorem mem_longClauses {c : ClauseId} {lits : List Lit} :
    (c, lits) ∈ f.longClauses ↔ c ∈ f.clauseIds ∧ f.lits c = lits := by
  simp only [longClauses, List.mem_iff_getElem?, List.getElem?_zip_eq_some]
  constructor
  · rintro ⟨i, hc, hl⟩
    rw [← index_eq_of_getElem? hc] at hl
    exact ⟨⟨i, hc⟩, by simp [Formula.lits, List.getD_eq_getElem?_getD, hl]⟩
  · rintro ⟨⟨i, hc⟩, rfl⟩
    have hm := List.mem_of_getElem? hc
    obtain rfl := index_eq_of_getElem? hc
    exact ⟨c.index, hc, by rw [lits_eq hm]; exact List.getElem?_eq_getElem _⟩

theorem map_fst_longClauses (f : Formula) : f.longClauses.map Prod.fst = f.clauseIds := by
  rw [longClauses, List.map_fst_zip]
  simp [clauseIds]

theorem longClauses_eq_map (f : Formula) : f.longClauses = f.clauseIds.map fun c => (c, f.lits c) := by
  have hlits : ∀ c ∈ f.longClauses, c = (c.1, f.lits c.1) := fun ⟨c, lits⟩ hc => by rw [(mem_longClauses.1 hc).2]
  rw [← map_fst_longClauses, List.map_map]
  exact (List.map_id _).symm.trans (List.map_congr_left hlits)

end Formula

/-! ## The index -/

namespace Adjacency

variable {f : Formula}

/-- Counting the links of every variable gives the starts of the rows that the links are appended to. -/
theorem neighbours_ofFormula : (ofFormula f).neighbours =
    .ofLists (f.vars.map fun v => (f.links (v.lit false) ++ f.links (v.lit true)).map Lit.var) :=
  Rows.ofLengths_eq (by simp) (by rw [List.flatMap_def])

theorem lt_of_mem_occurrenceEntries {e : Nat × ClauseId} (h : e ∈ occurrenceEntries f) : e.1 < f.varCount := by
  obtain ⟨⟨c, lits⟩, hc, h⟩ := List.mem_flatMap.1 h
  obtain ⟨l, hl, rfl⟩ := List.mem_map.1 h
  exact Var.index_lt_iff.2 (f.long_le lits (List.of_mem_zip hc).2 l hl)

/-- Counting and then placing the occurrences stores the rows that they make up. -/
theorem occurrences_ofFormula :
    (ofFormula f).occurrences = .ofLists (Rows.rowsOf f.varCount (occurrenceEntries f)) :=
  Rows.ofEntries_eq (fun _ => lt_of_mem_occurrenceEntries) _

@[simp] theorem varCount_ofFormula : (ofFormula f).varCount = f.varCount := by
  rw [varCount, neighbours_ofFormula, Rows.size_ofLists, List.length_map, Formula.vars, Var.length_firstN]

@[simp] theorem clauseCount_ofFormula : (ofFormula f).clauseCount = f.longs.length := by
  simp [clauseCount, ofFormula]

@[simp] theorem vars_ofFormula : (ofFormula f).vars = f.vars := by simp [vars, Formula.vars]

@[simp] theorem clauseIds_ofFormula : (ofFormula f).clauseIds = f.clauseIds := by simp [clauseIds, Formula.clauseIds]

@[simp] theorem lits_ofFormula (c : ClauseId) : (ofFormula f).lits c = f.lits c := Rows.row_ofLists ..

/-- A variable's neighbours come first from the clauses it is negative in. -/
theorem neighboursOf_ofFormula {v : Var} (hv : v.id ≤ f.varCount) :
    (ofFormula f).neighboursOf v = (f.links (v.lit false)).map Lit.var ++ (f.links (v.lit true)).map Lit.var := by
  have hi : v.index < f.vars.length := by rwa [Formula.vars, Var.length_firstN, Var.index_lt_iff]
  have hget : f.vars[v.index]? = some v := by
    rw [List.getElem?_eq_getElem hi, Option.some_inj]
    exact Var.ext_id (by simp [Formula.vars, Var.firstN])
  rw [neighboursOf, neighbours_ofFormula, Rows.row_ofLists]
  simp [List.getD_eq_getElem?_getD, List.getElem?_map, hget]

/-- A clause enters its id once in the row of each of its variables. -/
theorem entriesOf_clause {c : ClauseId} {lits : List Lit} (h : (lits.map Lit.var).Nodup) (v : Var) :
    Rows.entriesOf (lits.map fun l => (l.var.index, c)) v.index = if v ∈ lits.map Lit.var then [c] else [] := by
  have hcount : Rows.entriesOf (lits.map fun l => (l.var.index, c)) v.index =
      List.replicate ((lits.map Lit.var).count v) c := by
    rw [Rows.entriesOf, List.filter_map, List.map_map, List.count, List.countP_map, List.countP_eq_length_filter]
    refine List.eq_replicate_iff.2 ⟨?_, fun d hd => ?_⟩
    · rw [List.length_map]
      refine congrArg List.length (List.filter_congr fun l _ => ?_)
      exact decide_eq_decide.2 Var.index_inj
    · obtain ⟨l, -, rfl⟩ := List.mem_map.1 hd
      rfl
  rw [hcount, h.count]
  split <;> rfl

/-- The occurrences of a variable are the ids of the clauses that mention it, in their order. -/
theorem clausesOf_ofFormula {v : Var} (hv : v.id ≤ f.varCount) :
    (ofFormula f).clausesOf v = f.clauseIds.filter fun c => decide (f.Mentions c v) := by
  have hi : v.index < f.varCount := Var.index_lt_iff.2 hv
  have hrow : (ofFormula f).clausesOf v = Rows.entriesOf (occurrenceEntries f) v.index := by
    rw [clausesOf, occurrences_ofFormula, Rows.row_ofLists, Rows.rowsOf]
    simp [List.getD_eq_getElem?_getD, hi]
  have hfilter : ∀ cs : List ClauseId, (∀ c ∈ cs, c ∈ f.clauseIds) →
      (cs.flatMap fun c => Rows.entriesOf ((f.lits c).map fun l => (l.var.index, c)) v.index) =
        cs.filter fun c => decide (f.Mentions c v) := by
    intro cs hcs
    induction cs with
    | nil => rfl
    | cons c cs ih =>
      rw [List.forall_mem_cons] at hcs
      rw [List.flatMap_cons, ih hcs.2, List.filter_cons, entriesOf_clause (f.long_nodup _ (Formula.lits_mem hcs.1))]
      by_cases h : f.Mentions c v
      · rw [if_pos (List.mem_map.2 h), if_pos (decide_eq_true h)]
        rfl
      · rw [if_neg fun hm => h (List.mem_map.1 hm), if_neg (by simpa using h)]
        rfl
  rw [hrow, occurrenceEntries, Rows.entriesOf_flatMap, Formula.longClauses_eq_map, List.flatMap_map]
  exact hfilter f.clauseIds fun _ => id

/-- The neighbours of a variable are the variables it shares a binary clause with. -/
theorem mem_neighboursOf {v w : Var} (hv : v.id ≤ f.varCount) :
    w ∈ (ofFormula f).neighboursOf v ↔ f.Shares v w := by
  rw [neighboursOf_ofFormula hv, ← List.map_append]
  simp only [List.mem_map, List.mem_append, Formula.mem_links]
  constructor
  · rintro ⟨m, ⟨b, hb, rfl | ⟨-, rfl⟩⟩ | ⟨b, hb, rfl | ⟨-, rfl⟩⟩, rfl⟩
    · exact ⟨_, hb, .inl ⟨rfl, rfl⟩⟩
    · exact ⟨_, hb, .inr ⟨rfl, rfl⟩⟩
    · exact ⟨_, hb, .inl ⟨rfl, rfl⟩⟩
    · exact ⟨_, hb, .inr ⟨rfl, rfl⟩⟩
  · rintro ⟨⟨⟨x, p⟩, ⟨y, q⟩⟩, hb, ⟨rfl, rfl⟩ | ⟨rfl, rfl⟩⟩
    · refine ⟨⟨y, q⟩, ?_, rfl⟩
      cases p
      · exact .inl ⟨_, hb, .inl rfl⟩
      · exact .inr ⟨_, hb, .inl rfl⟩
    · have hne : x ≠ y := f.binary_ne _ hb
      refine ⟨⟨x, p⟩, ?_, rfl⟩
      cases q
      · exact .inl ⟨_, hb, .inr ⟨fun h => hne (congrArg Lit.var h), rfl⟩⟩
      · exact .inr ⟨_, hb, .inr ⟨fun h => hne (congrArg Lit.var h), rfl⟩⟩

/-- The occurrences of a variable are the long clauses that mention it. -/
theorem mem_clausesOf {v : Var} {c : ClauseId} (hv : v.id ≤ f.varCount) :
    c ∈ (ofFormula f).clausesOf v ↔ f.Mentions c v := by
  rw [clausesOf_ofFormula hv, List.mem_filter, decide_eq_true_eq]
  exact and_iff_right_of_imp Formula.Mentions.mem_clauseIds

/-- The outcomes of building an index, in the order in which they are tested. -/
theorem build_eq (f : Formula) : build f =
    if maxLinks < f.longLiteralCount then .error (.tooManyLinks f.longLiteralCount)
    else if maxLinks < 2 * f.binaries.length then .error (.tooManyLinks (2 * f.binaries.length))
    else if maxCounters < f.varCount then .error (.tooManyCounters f.varCount)
    else if Var.maxId < f.varCount then .error (.badId (.variableTooLarge (Var.maxId + 1)))
    else .ok (ofFormula f) := by
  unfold build requireLinks requireCounters Var.upTo
  split
  · rfl
  split
  · rfl
  split
  · rfl
  split
  · rfl
  · rfl

/-- The index is built unless there are too many links of one kind or too many variables. -/
theorem build_eq_ok_iff {adj : Adjacency} : build f = .ok adj ↔
    (f.longLiteralCount ≤ maxLinks ∧ 2 * f.binaries.length ≤ maxLinks ∧ f.varCount ≤ Var.maxId) ∧
      ofFormula f = adj := by
  have hmax : Var.maxId < maxCounters := by decide
  rw [build_eq]
  constructor
  · intro h
    split at h
    · cases h
    split at h
    · cases h
    split at h
    · cases h
    split at h
    · cases h
    · cases h
      exact ⟨by omega, rfl⟩
  · rintro ⟨⟨hlong, hbinary, hvar⟩, rfl⟩
    rw [if_neg (Nat.not_lt.2 hlong), if_neg (Nat.not_lt.2 hbinary), if_neg (by omega), if_neg (Nat.not_lt.2 hvar)]

end Adjacency

namespace Formula

variable {f : Formula}

theorem length_flatten_ge {α : Type} {n : Nat} : ∀ {rows : List (List α)}, (∀ row ∈ rows, n ≤ row.length) →
    n * rows.length ≤ rows.flatten.length
  | [], _ => Nat.le_refl _
  | row :: rows, h => by
    rw [List.forall_mem_cons] at h
    have htail := length_flatten_ge h.2
    rw [List.flatten_cons, List.length_append, List.length_cons, Nat.mul_succ]
    omega

/-- A long clause has three literals at least, and there is a limit on all of them. -/
theorem longs_length_le {adj : Adjacency} (hbuild : Adjacency.build f = .ok adj) :
    3 * f.longs.length ≤ Adjacency.maxLinks :=
  (length_flatten_ge f.three_le).trans (Adjacency.build_eq_ok_iff.1 hbuild).1.1

end Formula

/-- Every id that an index is made with passes its check, those of the variables one after the other. -/
theorem Adjacency.ids_of_build {f : Formula} {adj : Adjacency} (h : build f = .ok adj) :
    (List.range f.varCount).mapM Var.ofIndex = .ok adj.vars ∧ ∀ c ∈ adj.clauseIds, ClauseId.ofId c.id = .ok c := by
  have hlongs := Formula.longs_length_le h
  obtain ⟨⟨-, -, hvar⟩, rfl⟩ := build_eq_ok_iff.1 h
  constructor
  · rw [Var.mapM_ofIndex, Var.upTo, if_neg (Nat.not_lt.2 hvar), vars_ofFormula]
    rfl
  · intro c hc
    rw [clauseIds_ofFormula] at hc
    have hid : c.id ≤ f.longs.length := ClauseId.mem_firstN.1 hc
    have hmax : maxLinks = ClauseId.maxId := rfl
    exact ClauseId.ofId_id (by omega)

end ModelCount
