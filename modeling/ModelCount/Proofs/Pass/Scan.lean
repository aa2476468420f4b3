/-
One clause of a search. Scanning a clause that some literal satisfies changes nothing but the mark
of the clause, wherever that literal stands; scanning any other clause meets its literals whose
variables take part, in order. So the literals that are tried before a scan only save the scan.
-/
import ModelCount.Pass.Search

namespace ModelCount

namespace Pass

/-! ## Taking back scores -/

theorem lower_raise (p : Pass) (v : Var) : (p.raise v).lower v = p := by
  have hget : (p.scores.set v.index (p.scores.get v.index + 1)).get v.index - 1 = p.scores.get v.index := by
    rw [Table.get_set]
    split
    · rfl
    · rename_i h
      simp [Table.get_of_size_le _ (Nat.le_of_not_lt fun hlt => h ⟨rfl, hlt⟩)]
  simp only [raise, lower, setScore, score, hget, Table.set_set, Table.set_get]

/-- Lowers the scores of the scanned literals whose variables take part. -/
def lowerAll (p : Pass) (scanned : List Lit) : Pass :=
  scanned.foldl (fun p l => if p.isOutside l.var then p else p.lower l.var) p

theorem lowerAll_cons (p : Pass) (l : Lit) (scanned : List Lit) :
    p.lowerAll (l :: scanned) = (if p.isOutside l.var then p else p.lower l.var).lowerAll scanned := rfl

theorem isOutside_reach {p : Pass} {v : Var} (hv : p.isOutside v = false) (w : Var) :
    (p.reach v).isOutside w = p.isOutside w := by
  by_cases h : v = w
  · subst h
    have hlt := index_lt_of_varMark (p := p) (v := v) (by simpa [isOutside] using hv)
    rw [hv]
    simp [isOutside, varMark_reach, hlt]
  · simp [isOutside, varMark_reach, h]

theorem lowerAll_reach (scanned : List Lit) {p : Pass} {v : Var} (hv : p.isOutside v = false) :
    (p.reach v).lowerAll scanned = (p.lowerAll scanned).reach v := by
  induction scanned generalizing p with
  | nil => rfl
  | cons l scanned ih =>
    rw [lowerAll_cons, lowerAll_cons, isOutside_reach hv]
    split
    · exact ih hv
    · exact ih (p := p.lower l.var) hv

theorem lowerAll_keeps (scanned : List Lit) (p : Pass) :
    (p.lowerAll scanned).vars = p.vars ∧ (p.lowerAll scanned).worklist = p.worklist := by
  induction scanned generalizing p with
  | nil => exact ⟨rfl, rfl⟩
  | cons l scanned ih =>
    rw [lowerAll_cons]
    split
    · exact ih p
    · exact ih (p.lower l.var)

/-! ## Taking back the worklist -/

/-- A table of marks in which the variables are unseen again. -/
def unsee (t : Table VarMark) (vs : List Var) : Table VarMark := vs.foldl (fun t v => t.set v.index .unseen) t

theorem size_unsee (t : Table VarMark) (vs : List Var) : (unsee t vs).size = t.size := by
  induction vs generalizing t with
  | nil => rfl
  | cons v vs ih => exact (ih _).trans (Table.size_set ..)

theorem get_unsee (vs : List Var) {t : Table VarMark} {i : Nat} (hi : i < t.size) :
    (unsee t vs).get i = if ∃ v ∈ vs, v.index = i then .unseen else t.get i := by
  induction vs generalizing t with
  | nil => simp [unsee]
  | cons v vs ih =>
    refine (ih (t := t.set v.index .unseen) (by simpa using hi)).trans ?_
    rw [Table.get_set]
    simp only [List.mem_cons, exists_eq_or_imp, hi, and_true]
    by_cases h : v.index = i
    · simp [h]
    · simp [h]

theorem foldl_unseen (vs : List Var) (p : Pass) :
    vs.foldl (fun p v => p.markVar v .unseen) p = { p with vars := unsee p.vars vs } := by
  induction vs generalizing p with
  | nil => rfl
  | cons v vs ih => exact ih _

/-- Takes back what the worklist has beyond `len`. -/
def unreach (p : Pass) (len : Nat) : Pass :=
  { p with vars := unsee p.vars (p.worklist.toList.drop len), worklist := p.worklist.take len }

theorem undo_eq (p : Pass) (scanned : List Lit) (len : Nat) :
    p.undo scanned len = (p.lowerAll scanned).unreach len := by
  simp only [undo, foldl_unseen]
  rfl

/-- A variable that was unseen before it was reached is taken back with what was reached since. -/
theorem unreach_reach {p : Pass} {v : Var} {len : Nat} (hv : p.varMark v = .unseen)
    (hlen : len ≤ p.worklist.size) : (p.reach v).unreach len = p.unreach len := by
  have hdrop : (p.worklist.push v).toList.drop len = p.worklist.toList.drop len ++ [v] := by
    rw [Array.toList_push, List.drop_append_of_le_length (by simpa using hlen)]
  have hvars : unsee (p.vars.set v.index .seen) (p.worklist.toList.drop len ++ [v]) =
      unsee p.vars (p.worklist.toList.drop len) := by
    refine Table.ext_get (by simp [size_unsee]) fun i hi => ?_
    have hi' : i < p.vars.size := by simpa [size_unsee] using hi
    rw [get_unsee _ (by simpa using hi'), get_unsee _ hi', Table.get_set]
    by_cases h : v.index = i
    · subst h
      rw [if_pos ⟨v, by simp, rfl⟩]
      split
      · rfl
      · exact hv.symm
    · simp [h, exists_or, or_and_right]
  have htake : (p.worklist.push v).take len = p.worklist.take len := by
    apply Array.toList_inj.1
    simp [List.take_append_of_le_length (show len ≤ p.worklist.toList.length by simpa using hlen)]
  simp only [unreach, reach, markVar, hdrop, hvars, htake]

/-! ## Scans -/

/-- Meeting a literal is undone with the literals met before it. -/
theorem undo_meet {p : Pass} {l : Lit} {scanned : List Lit} {len : Nat} (hl : p.isOutside l.var = false)
    (hlen : len ≤ p.worklist.size) : (p.meet l.var).undo (l :: scanned) len = p.undo scanned len := by
  simp only [undo_eq, meet]
  split
  · rename_i hseen
    have hout : ((p.raise l.var).reach l.var).isOutside l.var = false := by
      rw [isOutside_reach (p := p.raise l.var) hl]; exact hl
    have hlow : ((p.raise l.var).reach l.var).lower l.var = p.reach l.var := by
      show ((p.raise l.var).lower l.var).reach l.var = p.reach l.var
      rw [lower_raise]
    rw [lowerAll_cons, hout, if_neg Bool.false_ne_true, hlow, lowerAll_reach scanned hl]
    refine unreach_reach ?_ ?_
    · rw [varMark, (lowerAll_keeps scanned p).1]; exact hseen
    · rw [(lowerAll_keeps scanned p).2]; exact hlen
  · have hout : (p.raise l.var).isOutside l.var = false := hl
    rw [lowerAll_cons, hout, if_neg Bool.false_ne_true, lower_raise]

/-- A literal whose variable is outside leaves nothing to be undone. -/
theorem undo_outside {p : Pass} {l : Lit} {scanned : List Lit} {len : Nat} (hl : p.isOutside l.var = true) :
    p.undo (l :: scanned) len = p.undo scanned len := by
  rw [undo_eq, undo_eq, lowerAll_cons, if_pos hl]

theorem isOutside_meet {p : Pass} {v : Var} (hv : p.isOutside v = false) (w : Var) :
    (p.meet v).isOutside w = p.isOutside w := by
  simp only [meet]
  split
  · exact isOutside_reach (p := p.raise v) hv w
  · rfl

theorem prefix_meet (p : Pass) (v : Var) : p.worklist.toList <+: (p.meet v).worklist.toList := by
  simp only [meet]
  split
  · rw [worklist_reach, worklist_raise, Array.toList_push]
    exact List.prefix_append ..
  · exact List.prefix_refl _

theorem size_worklist_le_meet (p : Pass) (v : Var) : p.worklist.size ≤ (p.meet v).worklist.size := by
  simpa using (p.prefix_meet v).length_le

/-- The literals of a clause whose variables take part. -/
def inside (p : Pass) (lits : List Lit) : List Lit := lits.filter fun l => !p.isOutside l.var

/-- Meets the variables of all literals that take part. -/
def meetAll (p : Pass) (lits : List Lit) : Pass := lits.foldl (fun p l => p.meet l.var) p

variable {a : Assignment}

/-- A scan under way: `p` is the state before it, to which the literals scanned so far can be undone. -/
theorem scan_from {p : Pass} (lits : List Lit) {q : Pass} {scanned : List Lit} (whole : Bool)
    (hundo : q.undo scanned p.worklist.size = p) (hout : ∀ v, q.isOutside v = p.isOutside v)
    (hlen : p.worklist.size ≤ q.worklist.size) :
    scan a p.worklist.size scanned whole q lits =
      if lits.any (p.satisfies a) then (.outside, p)
      else
        (if whole && lits.all (fun l => !p.isOutside l.var) then .seenWhole else .seen, q.meetAll (p.inside lits)) := by
  induction lits generalizing q scanned whole with
  | nil => simp [scan, inside, meetAll]
  | cons l lits ih =>
    rw [scan, hout]
    by_cases hl : p.isOutside l.var = true
    · rw [if_pos hl]
      by_cases ht : a.isTrue l = true
      · simp [ht, satisfies, hl, hundo]
      · rw [if_neg ht, ih _ (by rw [undo_outside ((hout _).trans hl), hundo]) hout hlen]
        simp [satisfies, hl, ht, inside]
    · simp only [Bool.not_eq_true] at hl
      have hq : q.isOutside l.var = false := (hout _).trans hl
      rw [hl, if_neg Bool.false_ne_true, ih _ (by rw [undo_meet hq hlen, hundo])
        (fun v => (isOutside_meet hq v).trans (hout v)) (Nat.le_trans hlen (size_worklist_le_meet q _))]
      simp [satisfies, hl, inside, meetAll]

/-- A scan meets all literals whose variables take part, or changes nothing if a literal satisfies
the clause. -/
theorem scan_eq (p : Pass) (lits : List Lit) :
    scan a p.worklist.size [] true p lits =
      if lits.any (p.satisfies a) then (.outside, p)
      else (if lits.all (fun l => !p.isOutside l.var) then .seenWhole else .seen, p.meetAll (p.inside lits)) := by
  have hnil : p.undo [] p.worklist.size = p := by
    have hd : p.worklist.toList.drop p.worklist.size = [] := List.drop_eq_nil_of_le (by simp)
    simp only [undo_eq, lowerAll, List.foldl_nil, unreach, hd, unsee]
    simp
  simpa using scan_from lits true hnil (fun _ => rfl) (Nat.le_refl _)

/-- A clause is dealt with as if no literal were tried before the scan. -/
theorem visitClause_eq (adj : Adjacency) (v : Var) (p : Pass) (c : ClauseId) :
    visitClause adj a v p c =
      if p.clauseMark c ≠ .unseen then p
      else if (adj.lits c).any (p.satisfies a) then p.markClause c .outside
      else ((p.meetAll (p.inside (adj.lits c))).markClause c
        (if (adj.lits c).all (fun l => !p.isOutside l.var) then .seenWhole else .seen)).raise v := by
  rw [visitClause]
  split
  · rfl
  · by_cases hw : (adj.watched c).any (p.satisfies a) = true
    · have hany : (adj.lits c).any (p.satisfies a) = true := by
        obtain ⟨l, hl, hs⟩ := List.any_eq_true.1 hw
        exact List.any_eq_true.2 ⟨l, List.mem_of_mem_take hl, hs⟩
      rw [if_pos hw, if_pos hany]
    · rw [if_neg hw, scan_eq]
      by_cases hany : (adj.lits c).any (p.satisfies a) = true
      · simp [hany]
      · have hmark : ∀ b : Bool, (if b then ClauseMark.seenWhole else .seen) ≠ .outside := by decide
        rw [if_neg hany, if_neg hany]
        exact if_neg (hmark _)

end Pass

end ModelCount
