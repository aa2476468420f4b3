/-
No pass over a loaded formula goes beyond a table, a word or zero. The tables have the sizes of the formula,
every variable and clause that a pass comes to is one of the formula, a scan takes back only what it added,
and the closed form of the scores leaves room in a word of 32 bits.
-/
import ModelCount.Proofs.Packing
import ModelCount.Proofs.Pass.Checked
import ModelCount.Proofs.Pass.SplitScores

namespace ModelCount

/-- A fold of steps that have an outcome as long as an invariant holds. -/
theorem foldlM_eq_some {α β : Type} {step? : β → α → Option β} {step : β → α → β} (P : β → Prop) (xs : List α)
    (h : ∀ x ∈ xs, ∀ b, P b → step? b x = some (step b x) ∧ P (step b x)) :
    ∀ b, P b → xs.foldlM step? b = some (xs.foldl step b) ∧ P (xs.foldl step b) := by
  induction xs with
  | nil => exact fun b hb => ⟨rfl, hb⟩
  | cons x xs ih =>
    intro b hb
    rw [List.forall_mem_cons] at h
    obtain ⟨hx, hb'⟩ := h.1 b hb
    rw [List.foldlM_cons, hx]
    exact ih h.2 _ hb'

theorem guard_bind {α : Type} {c : Prop} [Decidable c] (h : c) (x : Option α) : (guard c >>= fun _ => x) = x := by
  rw [guard, if_pos h]
  rfl

theorem anyM_eq_some {α : Type} {f? : α → Option Bool} {f : α → Bool} {xs : List α}
    (h : ∀ x ∈ xs, f? x = some (f x)) : xs.anyM f? = some (xs.any f) := by
  induction xs with
  | nil => rfl
  | cons x xs ih =>
    rw [List.forall_mem_cons] at h
    rw [List.anyM, h.1, List.any_cons, Option.bind_eq_bind, Option.bind_some]
    cases f x with
    | true => rfl
    | false => exact ih h.2

variable {f : Formula} {a : Assignment} {super : Component}

/-! ## The index and the assignment -/

namespace Adjacency

variable {v : Var} {c : ClauseId}

theorem neighboursOf?_eq (hv : v.id ≤ f.varCount) :
    (ofFormula f).neighboursOf? v = some ((ofFormula f).neighboursOf v) := by
  rw [neighboursOf?, neighboursOf, neighbours_ofFormula]
  exact Rows.row?_ofLists (by simpa [Formula.vars, Var.index_lt_iff] using hv)

theorem clausesOf?_eq (hv : v.id ≤ f.varCount) : (ofFormula f).clausesOf? v = some ((ofFormula f).clausesOf v) := by
  rw [clausesOf?, clausesOf, occurrences_ofFormula]
  exact Rows.row?_ofLists (by simpa [Var.index_lt_iff] using hv)

theorem lits?_eq (hc : c ∈ f.clauseIds) : (ofFormula f).lits? c = some (f.lits c) := by
  rw [← lits_ofFormula]
  exact Rows.row?_ofLists (Formula.mem_clauseIds.1 hc)

theorem watched?_eq (hc : c ∈ f.clauseIds) : (ofFormula f).watched? c = some ((ofFormula f).watched c) := by
  have hthree := f.three_le _ (Formula.lits_mem hc)
  rw [watched?, lits?_eq hc, Option.bind_eq_bind, Option.bind_some, guard_bind (by omega), watched, lits_ofFormula]
  rfl

end Adjacency

namespace Assignment

theorem isActive?_eq {v : Var} (hv : v.id ≤ a.varCount) : a.isActive? v = some (a.isActive v) := by
  rw [isActive?, Table.get?_eq (Var.index_lt_iff.2 hv)]
  rfl

theorem isTrue?_eq {l : Lit} (hl : l.var.id ≤ a.varCount) : a.isTrue? l = some (a.isTrue l) := by
  rw [isTrue?, Table.get?_eq (Var.index_lt_iff.2 hl)]
  rfl

end Assignment

namespace Pass

/-! ## Single steps -/

section

variable {p : Pass} {v : Var} {c : ClauseId}

theorem Fits.markVar (hp : p.Fits f) (v : Var) (m : VarMark) : (p.markVar v m).Fits f :=
  ⟨(Table.size_set ..).trans hp.vars, hp.clauses, hp.scores⟩

theorem Fits.markClause (hp : p.Fits f) (c : ClauseId) (m : ClauseMark) : (p.markClause c m).Fits f :=
  ⟨hp.vars, (Table.size_set ..).trans hp.clauses, hp.scores⟩

theorem Fits.setScore (hp : p.Fits f) (v : Var) (n : Nat) : (p.setScore v n).Fits f :=
  ⟨hp.vars, hp.clauses, (Table.size_set ..).trans hp.scores⟩

theorem Fits.raise (hp : p.Fits f) (v : Var) : (p.raise v).Fits f := hp.setScore v _

theorem Fits.reach (hp : p.Fits f) (v : Var) : (p.reach v).Fits f :=
  ⟨(Table.size_set ..).trans hp.vars, hp.clauses, hp.scores⟩

theorem Fits.meet (hp : p.Fits f) (v : Var) : (p.meet v).Fits f := by
  rw [Pass.meet]
  split
  · exact (hp.raise v).reach v
  · exact hp.raise v

theorem varMark?_eq (hp : p.Fits f) (hv : v.id ≤ f.varCount) : p.varMark? v = some (p.varMark v) :=
  Table.get?_eq (hp.vars ▸ Var.index_lt_iff.2 hv)

theorem clauseMark?_eq (hp : p.Fits f) (hc : c ∈ f.clauseIds) : p.clauseMark? c = some (p.clauseMark c) :=
  Table.get?_eq (hp.clauses ▸ Formula.mem_clauseIds.1 hc)

theorem markVar?_eq (hp : p.Fits f) (hv : v.id ≤ f.varCount) (m : VarMark) : p.markVar? v m = some (p.markVar v m) := by
  rw [markVar?, Table.set?_eq (hp.vars ▸ Var.index_lt_iff.2 hv)]
  rfl

theorem markClause?_eq (hp : p.Fits f) (hc : c ∈ f.clauseIds) (m : ClauseMark) :
    p.markClause? c m = some (p.markClause c m) := by
  rw [markClause?, Table.set?_eq (hp.clauses ▸ Formula.mem_clauseIds.1 hc)]
  rfl

theorem setScore?_eq (hp : p.Fits f) (hv : v.id ≤ f.varCount) (n : Nat) : p.setScore? v n = some (p.setScore v n) := by
  rw [setScore?, Table.set?_eq (hp.scores ▸ Var.index_lt_iff.2 hv)]
  rfl

/-- Raising a score that a word has room for. -/
theorem raise?_eq (hp : p.Fits f) (hv : v.id ≤ f.varCount) (hroom : p.score v + 1 < wordSize) :
    p.raise? v = some (p.raise v) := by
  rw [raise?, Table.get?_eq (hp.scores ▸ Var.index_lt_iff.2 hv), Option.bind_eq_bind, Option.bind_some,
    guard_bind (show p.scores.get v.index + 1 < wordSize from hroom)]
  exact setScore?_eq hp hv _

theorem lower?_eq (hp : p.Fits f) (hv : v.id ≤ f.varCount) (hpos : 0 < p.score v) :
    p.lower? v = some (p.lower v) := by
  rw [lower?, Table.get?_eq (hp.scores ▸ Var.index_lt_iff.2 hv), Option.bind_eq_bind, Option.bind_some,
    guard_bind (show 0 < p.scores.get v.index from hpos)]
  exact setScore?_eq hp hv _

theorem isOutside?_eq (hp : p.Fits f) (hv : v.id ≤ f.varCount) : p.isOutside? v = some (p.isOutside v) := by
  rw [isOutside?, varMark?_eq hp hv]
  rfl

theorem reach?_eq (hp : p.Fits f) (hv : v.id ≤ f.varCount) : p.reach? v = some (p.reach v) := by
  rw [reach?, markVar?_eq hp hv]
  rfl

theorem satisfies?_eq (hp : p.Fits f) (ha : a.varCount = f.varCount) {l : Lit} (hl : l.var.id ≤ f.varCount) :
    p.satisfies? a l = some (p.satisfies a l) := by
  rw [satisfies?, isOutside?_eq hp hl, Option.bind_eq_bind, Option.bind_some, satisfies]
  cases p.isOutside l.var with
  | true => exact Assignment.isTrue?_eq (ha ▸ hl)
  | false => rfl

theorem follow?_eq (hp : p.Fits f) {w : Var} (hvw : f.Shares v w) (hv : p.score v + 1 < wordSize)
    (hw : p.varMark w = .unseen → p.score w + 1 < wordSize) : follow? v p w = some (follow v p w) := by
  obtain ⟨hvle, hwle⟩ := hvw.id_le
  rw [follow?, varMark?_eq hp hwle, Option.bind_eq_bind, Option.bind_some, follow]
  split
  · rename_i hseen
    have hroom : ((p.reach w).raise v).score w + 1 < wordSize := by
      rw [score_raise (by rw [(hp.reach w).scores]; exact Var.index_lt_iff.2 hvle), if_neg hvw.ne]
      exact hw hseen
    simp only [reach?_eq hp hwle, raise?_eq (hp.reach w) hvle hv, raise?_eq ((hp.reach w).raise v) hwle hroom,
      Option.bind_eq_bind, Option.bind_some]
  · rfl

theorem meet?_eq (hp : p.Fits f) (hv : v.id ≤ f.varCount) (hroom : p.score v + 1 < wordSize) :
    p.meet? v = some (p.meet v) := by
  rw [meet?, raise?_eq hp hv hroom, Option.bind_eq_bind, Option.bind_some, varMark?_eq (hp.raise v) hv,
    Option.bind_eq_bind, Option.bind_some, meet]
  split
  · exact reach?_eq (hp.raise v) hv
  · rfl

end

/-! ## Scans -/

section

variable {p : Pass} {v : Var} {c : ClauseId} {len : Nat} {scanned lits : List Lit} {l : Lit}

theorem score_lower_of_ne (p : Pass) {v w : Var} (h : v ≠ w) : (p.lower v).score w = p.score w := by
  simp only [score, lower, setScore, Table.get_set, Var.index_inj, h, false_and, if_false]

theorem Fits.lowerAll (hp : p.Fits f) (scanned : List Lit) : (p.lowerAll scanned).Fits f := by
  induction scanned generalizing p with
  | nil => exact hp
  | cons l scanned ih =>
    rw [lowerAll_cons]
    split
    · exact ih hp
    · exact ih (hp.setScore l.var _)

theorem lowerAll?_eq (hnd : (scanned.map Lit.var).Nodup) (hle : ∀ l ∈ scanned, l.var.id ≤ f.varCount) :
    ∀ {p : Pass}, p.Fits f → (∀ l ∈ scanned, p.isOutside l.var = false → 0 < p.score l.var) →
      scanned.foldlM lowerInside? p = some (p.lowerAll scanned) := by
  induction scanned with
  | nil => exact fun _ _ => rfl
  | cons l scanned ih =>
    intro p hp hpos
    rw [List.map_cons, List.nodup_cons] at hnd
    rw [List.forall_mem_cons] at hle hpos
    rw [List.foldlM_cons, lowerInside?, isOutside?_eq hp hle.1, lowerAll_cons]
    cases hl : p.isOutside l.var with
    | true =>
      simp only [Option.bind_eq_bind, Option.bind_some, if_true]
      exact ih hnd.2 hle.2 hp hpos.2
    | false =>
      simp only [Option.bind_eq_bind, Option.bind_some, Bool.false_eq_true, if_false, lower?_eq hp hle.1 (hpos.1 hl)]
      refine ih hnd.2 hle.2 (hp.setScore l.var _) fun m hm hout => ?_
      -- The variables of a clause are distinct, so this literal took nothing from the score of another one.
      have hne : l.var ≠ m.var := fun h => hnd.1 (h ▸ List.mem_map_of_mem hm)
      rw [score_lower_of_ne p hne]
      exact hpos.2 m hm hout

/-- A scan under way: the scanned literals that take part have raised their scores, and those of the literals
still to come have room. -/
structure Scannable (f : Formula) (len : Nat) (scanned lits : List Lit) (p : Pass) : Prop where
  fits : p.Fits f
  nodup : ((scanned ++ lits).map Lit.var).Nodup
  id_le : ∀ l ∈ scanned ++ lits, l.var.id ≤ f.varCount
  pos : ∀ l ∈ scanned, p.isOutside l.var = false → 0 < p.score l.var
  room : ∀ l ∈ lits, p.isOutside l.var = false → p.score l.var + 1 < wordSize
  worklist : ∀ v ∈ p.worklist.toList, v.id ≤ f.varCount
  length : len ≤ p.worklist.size

theorem Scannable.undo?_eq (h : Scannable f len scanned lits p) : p.undo? scanned len = some (p.undo scanned len) := by
  have hnd : (scanned.map Lit.var).Nodup := by
    have hnd := h.nodup
    rw [List.map_append] at hnd
    exact (List.nodup_append.1 hnd).1
  have hlower := lowerAll?_eq hnd (fun l hl => h.id_le l (List.mem_append_left _ hl)) h.fits h.pos
  obtain ⟨hvars, hlist⟩ := lowerAll_keeps scanned p
  have hmark : ((p.lowerAll scanned).worklist.toList.drop len).foldlM (fun p v => p.markVar? v .unseen)
        (p.lowerAll scanned) =
      some (((p.lowerAll scanned).worklist.toList.drop len).foldl (fun p v => p.markVar v .unseen)
        (p.lowerAll scanned)) :=
    (foldlM_eq_some (fun q : Pass => q.Fits f) _ (fun v hv q hq =>
      ⟨markVar?_eq hq (h.worklist v (hlist ▸ List.mem_of_mem_drop hv)) _, hq.markVar v _⟩) _ (h.fits.lowerAll scanned)).1
  rw [undo?, hlower, Option.bind_eq_bind, Option.bind_some, guard_bind (by rw [hlist]; exact h.length), hmark]
  rfl

/-- A literal whose variable is outside changes nothing. -/
theorem Scannable.skip (h : Scannable f len scanned (l :: lits) p) (hl : p.isOutside l.var = true) :
    Scannable f len (l :: scanned) lits p := by
  have hperm : (l :: scanned ++ lits).Perm (scanned ++ l :: lits) := List.perm_middle.symm
  refine ⟨h.fits, (hperm.map Lit.var).nodup_iff.2 h.nodup, fun m hm => h.id_le m (hperm.mem_iff.1 hm), ?_,
    fun m hm => h.room m (List.mem_cons_of_mem _ hm), h.worklist, h.length⟩
  refine List.forall_mem_cons.2 ⟨fun hout => ?_, h.pos⟩
  rw [hl] at hout
  cases hout

theorem Scannable.meet (h : Scannable f len scanned (l :: lits) p) (hl : p.isOutside l.var = false) :
    Scannable f len (l :: scanned) lits (p.meet l.var) := by
  have hperm : (l :: scanned ++ lits).Perm (scanned ++ l :: lits) := List.perm_middle.symm
  have hle := h.id_le l (by simp)
  have hscore := score_meet (p := p) (v := l.var) (h.fits.scores ▸ Var.index_lt_iff.2 hle)
  have hnd := (hperm.map Lit.var).nodup_iff.2 h.nodup
  rw [List.cons_append, List.map_cons, List.nodup_cons] at hnd
  have hne : ∀ m ∈ scanned ++ lits, l.var ≠ m.var := fun m hm heq => hnd.1 (heq ▸ List.mem_map_of_mem hm)
  -- The other literals have other variables, whose scores stay as they are.
  refine ⟨h.fits.meet l.var, (hperm.map Lit.var).nodup_iff.2 h.nodup, fun m hm => h.id_le m (hperm.mem_iff.1 hm),
    ?_, fun m hm hout => ?_, ?_, h.length.trans (size_worklist_le_meet p l.var)⟩
  · refine List.forall_mem_cons.2 ⟨fun _ => ?_, fun m hm hout => ?_⟩
    · rw [hscore, if_pos rfl]
      exact Nat.succ_pos _
    · rw [hscore, if_neg (hne m (List.mem_append_left _ hm))]
      exact h.pos m hm ((isOutside_meet hl _).symm.trans hout)
  · rw [hscore, if_neg (hne m (List.mem_append_right _ hm))]
    exact h.room m (List.mem_cons_of_mem _ hm) ((isOutside_meet hl _).symm.trans hout)
  · intro v hv
    rcases mem_meetAll [l] (p := p) hv with hv | ⟨m, hm, rfl⟩
    · exact h.worklist v hv
    · rw [List.mem_singleton.1 hm]
      exact hle

theorem Scannable.scan?_eq (ha : a.varCount = f.varCount) : ∀ {lits scanned : List Lit} (whole : Bool) {p : Pass},
    Scannable f len scanned lits p → scan? a len scanned whole p lits = some (scan a len scanned whole p lits)
  | [], _, _, _, _ => rfl
  | l :: lits, scanned, whole, p, h => by
    have hle := h.id_le l (by simp)
    rw [scan?, isOutside?_eq h.fits hle, scan]
    cases hl : p.isOutside l.var with
    | true =>
      simp only [Option.bind_eq_bind, Option.bind_some, if_true, Assignment.isTrue?_eq (ha ▸ hle), h.undo?_eq]
      split
      · rfl
      · exact (h.skip hl).scan?_eq ha false
    | false =>
      simp only [Option.bind_eq_bind, Option.bind_some, Bool.false_eq_true, if_false,
        meet?_eq h.fits hle (h.room l (by simp) hl)]
      exact (h.meet hl).scan?_eq ha whole

end

/-! ## Room for the scores -/

end Pass

namespace Formula

/-- Two for every long clause and one for every variable fit into a word, with room for two more. -/
theorem scores_fit {adj : Adjacency} (hbuild : Adjacency.build f = .ok adj) (hmax : f.varCount ≤ Var.maxId) :
    2 * f.longs.length + f.varCount + 2 < wordSize := by
  have hlongs := longs_length_le hbuild
  simp only [Adjacency.maxLinks, Var.maxId, wordSize, wordBits, Nat.one_shiftLeft] at hlongs hmax ⊢
  omega

theorem scoreFor_le {clauses : List ClauseId} {worklist : List Var} (hne : worklist ≠ []) (v : Var) :
    f.scoreFor a super clauses worklist v ≤ 2 * clauses.length + worklist.length := by
  have hmentions := List.countP_le_length (p := fun c => f.Mentions c v) (l := clauses)
  have hmet := List.countP_le_length (p := fun c => f.metAt worklist c = some v) (l := clauses)
  have hsource := List.countP_le_length (p := fun w => f.linkSource a super worklist w = some v) (l := worklist.tail)
  have hlength := List.length_pos_of_ne_nil hne
  rw [List.length_tail] at hsource
  rw [scoreFor]
  split <;> omega

end Formula

namespace Pass

section

variable {p₀ p : Pass} {seed v : Var} {c : ClauseId} {position : Nat} {clauses : List ClauseId}

/-- The scores of all variables that take part stay clear of the end of a word. -/
def Roomy (a : Assignment) (super : Component) (p : Pass) : Prop :=
  ∀ u, super.TakesPart a u → p.score u + 2 < wordSize

/-- A search leaves room: its own variables start at zero, and it does not touch the others. -/
theorem Scoring.roomy (hfit : super.Within f) (hr : Ready f a super p₀) (hfresh : Fresh p₀)
    (hroom : 2 * f.longs.length + f.varCount + 2 < wordSize) (hroomy : Roomy a super p₀)
    (h : Scoring f a super p₀ seed position clauses p) : Roomy a super p := by
  intro u htu
  rw [h.score, if_pos htu]
  by_cases hu : p₀.varMark u = .unseen
  · have hclauses : clauses.length ≤ f.longs.length := by
      have hsub : clauses ⊆ f.clauseIds := fun c hc =>
        hfit.clause_mem c (hr.clause_mem c ((h.mem_clauses c).1 hc).1)
      simpa [Formula.clauseIds] using (List.subperm_of_subset h.nodup_clauses hsub).length_le
    have hle : f.scoreFor a super clauses p.worklist.toList u ≤ 2 * clauses.length + p.worklist.toList.length :=
      Formula.scoreFor_le h.anchored.ne_nil u
    have hlist := h.length_le hfit hr
    rw [hfresh u hu]
    omega
  · have hnot : u ∉ p.worklist.toList := fun hmem => hu (h.reachable u hmem).1
    rw [h.scoreFor_of_not_mem htu hnot]
    exact hroomy u htu

theorem Fits.meetAll (hp : p.Fits f) (lits : List Lit) : (p.meetAll lits).Fits f := by
  induction lits generalizing p with
  | nil => exact hp
  | cons l lits ih => exact ih (hp.meet l.var)

/-- Meeting a clause takes one of the two from a variable that has room for two more. -/
theorem score_meetAll_lt (hp : p.Fits f) (hc : c ∈ f.clauseIds) (hroom : p.score v + 2 < wordSize) :
    (p.meetAll (p.inside (f.lits c))).score v + 1 < wordSize := by
  have hsize : ∀ l ∈ p.inside (f.lits c), l.var.index < p.scores.size := fun l hl => by
    rw [hp.scores]
    exact Var.index_lt_iff.2 (f.long_le _ (Formula.lits_mem hc) l (List.mem_of_mem_filter hl))
  rw [score_meetAll _ hsize, countP_var_eq (nodup_inside p hc)]
  split <;> omega

/-- Handling a clause whose variables have room for two more. -/
theorem visitClause?_eq (ha : a.varCount = f.varCount) (hp : p.Fits f)
    (hlist : ∀ u ∈ p.worklist.toList, u.id ≤ f.varCount)
    (hcv : f.Mentions c v) (hroom : ∀ u, p.isOutside u = false → p.score u + 2 < wordSize)
    (hv : p.isOutside v = false) : visitClause? (.ofFormula f) a v p c = some (visitClause (.ofFormula f) a v p c) := by
  have hc := hcv.mem_clauseIds
  have hle : ∀ l ∈ f.lits c, l.var.id ≤ f.varCount := fun l hl => f.long_le _ (Formula.lits_mem hc) l hl
  have hscannable : Scannable f p.worklist.size [] (f.lits c) p :=
    ⟨hp, f.long_nodup _ (Formula.lits_mem hc), hle, List.forall_mem_nil _,
      fun l _ hout => Nat.lt_of_succ_lt (hroom l.var hout), hlist, Nat.le_refl _⟩
  have hany : ((Adjacency.ofFormula f).watched c).anyM (p.satisfies? a) =
      some (((Adjacency.ofFormula f).watched c).any (p.satisfies a)) := anyM_eq_some fun l hl => by
    rw [Adjacency.watched, Adjacency.lits_ofFormula] at hl
    exact satisfies?_eq hp ha (hle l (List.mem_of_mem_take hl))
  have hscan := hscannable.scan?_eq ha true
  simp only [visitClause?, visitClause, clauseMark?_eq hp hc, Adjacency.watched?_eq hc, hany, Adjacency.lits?_eq hc,
    Adjacency.lits_ofFormula, hscan, Option.bind_eq_bind, Option.bind_some, markClause?_eq hp hc]
  split
  · rfl
  · split
    · rfl
    · rw [scan_eq]
      split
      · -- The scan was undone, so the clause is marked in the state before it.
        rw [markClause?_eq hp hc]
        rfl
      · have hmark : ∀ b : Bool, (if b then ClauseMark.seenWhole else .seen) ≠ .outside := by decide
        have hfits := hp.meetAll (p.inside (f.lits c))
        have hscore : ((p.meetAll (p.inside (f.lits c))).markClause c
            (if (f.lits c).all (fun l => !p.isOutside l.var) then .seenWhole else .seen)).score v + 1 < wordSize :=
          score_meetAll_lt hp hc (hroom v hv)
        simp only [markClause?_eq hfits hc, Option.bind_some, if_neg (hmark _),
          raise?_eq (hfits.markClause c _) hcv.id_le hscore]

theorem followAll?_eq (hfit : super.Within f) (hr : Ready f a super p₀)
    (hroomy : ∀ {q : Pass}, Scoring f a super p₀ seed position clauses q → Roomy a super q)
    (h : Scoring f a super p₀ seed position clauses p) (hv : p.worklist.toList[position]? = some v) {ws : List Var}
    (hws : ∀ w ∈ ws, f.Shares v w) : ws.foldlM (follow? v) p = some (ws.foldl (follow v) p) := by
  refine (foldlM_eq_some (fun q : Pass => Scoring f a super p₀ seed position clauses q ∧
    q.worklist.toList[position]? = some v) ws (fun w hw q hq => ?_) p ⟨h, hv⟩).1
  obtain ⟨hq, hvq⟩ := hq
  have hmem := List.mem_of_getElem? hvq
  obtain ⟨-, hg, -⟩ := hq.toSearching.follow hr hmem (hws w hw)
  have hroom : ∀ u, super.TakesPart a u → q.score u + 1 < wordSize := fun u htu => Nat.lt_of_succ_lt (hroomy hq u htu)
  refine ⟨follow?_eq hq.fits (hws w hw) (hroom v (hq.takesPart hr hmem)) fun hseen => hroom w ?_,
    hq.follow hfit hr hvq (hws w hw), VisitedBefore.getElem?_grows hvq hg⟩
  by_contra hnot
  have hout := (hq.isOutside_iff hr w).2 hnot
  simp [isOutside, hseen] at hout

theorem visitClauses?_eq (hfit : super.Within f) (ha : a.varCount = f.varCount) (hr : Ready f a super p₀)
    (hroomy : ∀ {clauses : List ClauseId} {q : Pass}, Scoring f a super p₀ seed position clauses q → Roomy a super q)
    (h : Scoring f a super p₀ seed position clauses p) (hv : p.worklist.toList[position]? = some v)
    (hfollowed : ∀ w, f.Shares v w → super.TakesPart a w → w ∈ p.worklist.toList) {cs : List ClauseId}
    (hcs : ∀ c ∈ cs, f.Mentions c v) :
    cs.foldlM (visitClause? (.ofFormula f) a v) p = some (cs.foldl (visitClause (.ofFormula f) a v) p) := by
  refine (foldlM_eq_some (fun q : Pass => (∃ clauses, Scoring f a super p₀ seed position clauses q) ∧
    q.worklist.toList[position]? = some v ∧ ∀ w, f.Shares v w → super.TakesPart a w → w ∈ q.worklist.toList) cs
    (fun c hc q hq => ?_) p ⟨⟨clauses, h⟩, hv, hfollowed⟩).1
  obtain ⟨⟨clauses, hq⟩, hvq, hfq⟩ := hq
  have hmem := List.mem_of_getElem? hvq
  obtain ⟨-, hg, -⟩ := hq.toSearching.visitClause hr hmem (hcs c hc)
  have hin : ∀ u, q.isOutside u = false ↔ super.TakesPart a u := fun u => by
    rw [← Bool.not_eq_true, hq.isOutside_iff hr, not_not]
  refine ⟨visitClause?_eq ha hq.fits (fun u hu => hfit.var_id_le u (hq.takesPart hr hu).1) (hcs c hc)
    (fun u hu => hroomy hq u ((hin u).1 hu)) ((hin v).2 (hq.takesPart hr hmem)),
    hq.visitClause hfit hr hvq hfq (hcs c hc), VisitedBefore.getElem?_grows hvq hg,
    fun w hw htw => hg.mem (hfq w hw htw)⟩

theorem visit?_eq (hfit : super.Within f) (ha : a.varCount = f.varCount) (hr : Ready f a super p₀)
    (hroomy : ∀ {clauses : List ClauseId} {q : Pass}, Scoring f a super p₀ seed position clauses q → Roomy a super q)
    (h : Scoring f a super p₀ seed position clauses p) (hv : p.worklist.toList[position]? = some v) :
    p.visit? (.ofFormula f) a v = some (p.visit (.ofFormula f) a v) := by
  have hmem := List.mem_of_getElem? hv
  have hle := hfit.var_id_le v (h.takesPart hr hmem).1
  have hneighbours : ∀ w ∈ (Adjacency.ofFormula f).neighboursOf v, f.Shares v w := fun w hw =>
    (Adjacency.mem_neighboursOf hle).1 hw
  obtain ⟨-, hg, hn⟩ := Searching.followAll hr _ h.toSearching hmem hneighbours
  have h' := Scoring.followAll hfit hr _ h hv hneighbours
  have hv' := VisitedBefore.getElem?_grows hv hg
  have hfollow := followAll?_eq hfit hr hroomy h hv hneighbours
  have hclauses := visitClauses?_eq hfit ha hr hroomy h' hv'
    (fun w hw htw => hn w ((Adjacency.mem_neighboursOf hle).2 hw) htw) fun c hc => (Adjacency.mem_clausesOf hle).1 hc
  simp only [visit?, Adjacency.neighboursOf?_eq hle, Adjacency.clausesOf?_eq hle, hfollow, hclauses,
    Option.bind_eq_bind, Option.bind_some, visit]

end

section

variable {p₀ : Pass} {seed : Var}

theorem spread?_eq (hfit : super.Within f) (ha : a.varCount = f.varCount) (hr : Ready f a super p₀)
    (hroomy : ∀ {position : Nat} {clauses : List ClauseId} {q : Pass},
      Scoring f a super p₀ seed position clauses q → Roomy a super q) :
    ∀ (fuel position : Nat) {p : Pass} {clauses : List ClauseId}, Scoring f a super p₀ seed position clauses p →
      spread? (.ofFormula f) a fuel position p = some (spread (.ofFormula f) a fuel position p)
  | 0, _, _, _, _ => rfl
  | fuel + 1, position, p, clauses, h => by
    rw [spread?, spread]
    rcases hp : p.worklist[position]? with _ | v
    · rfl
    · have hv : p.worklist.toList[position]? = some v := by simpa using hp
      obtain ⟨clauses', h'⟩ := h.visit hfit hr hv
      simp only [visit?_eq hfit ha hr hroomy h hv, Option.bind_eq_bind, Option.bind_some]
      exact spread?_eq hfit ha hr hroomy fuel (position + 1) h'

/-- A search has an outcome, and leaves room for the next one. -/
theorem search?_eq (hfit : super.Within f) (ha : a.varCount = f.varCount)
    (hroom : 2 * f.longs.length + f.varCount + 2 < wordSize) (hr : Ready f a super p₀) (hfresh : Fresh p₀)
    (hroomy : Roomy a super p₀) (hseed : p₀.varMark seed = .unseen) :
    p₀.search? (.ofFormula f) a seed = some (p₀.search (.ofFormula f) a seed) ∧
      Roomy a super (p₀.search (.ofFormula f) a seed) := by
  have h0 := hr.scoring hseed
  have hkeeps : ∀ {position : Nat} {clauses : List ClauseId} {q : Pass},
      Scoring f a super p₀ seed position clauses q → Roomy a super q := fun h => h.roomy hfit hr hfresh hroom hroomy
  have hstart : ({ p₀ with worklist := #[] } : Pass).reach? seed =
      some (({ p₀ with worklist := #[] } : Pass).reach seed) :=
    reach?_eq ⟨hr.fits.vars, hr.fits.clauses, hr.fits.scores⟩ (hfit.var_id_le seed (hr.takesPart hseed).1)
  constructor
  · simp only [search?, hstart, Option.bind_eq_bind, Option.bind_some]
    exact spread?_eq hfit ha hr hkeeps _ 0 h0
  · obtain ⟨position, clauses, h, -⟩ := hr.scoring_search hfit hseed
    exact hkeeps h

/-- So has the step of a pass that runs it. -/
theorem explore?_eq (hfit : super.Within f) (ha : a.varCount = f.varCount)
    (hroom : 2 * f.longs.length + f.varCount + 2 < wordSize) (hr : Ready f a super p₀) (hfresh : Fresh p₀)
    (hroomy : Roomy a super p₀) (hseed : p₀.varMark seed = .unseen) :
    p₀.explore? (.ofFormula f) a seed = some (p₀.explore (.ofFormula f) a seed) ∧
      Roomy a super (p₀.search (.ofFormula f) a seed) := by
  obtain ⟨hsearch, hroomy'⟩ := search?_eq hfit ha hroom hr hfresh hroomy hseed
  refine ⟨?_, hroomy'⟩
  have hfits := (hr.search hfit hseed).fits
  simp only [explore?, explore, hsearch, Option.bind_eq_bind, Option.bind_some,
    markVar?_eq hfits (hfit.var_id_le seed (hr.takesPart hseed).1)]
  split <;> rfl

end

/-! ## Whole passes -/

theorem placeVars?_eq : ∀ {vs : List Var} {p : Pass}, p.Fits f → (∀ v ∈ vs, v.id ≤ f.varCount) →
    p.placeVars? vs = some (p.placeVars vs)
  | [], _, _, _ => rfl
  | v :: vs, p, hp, hvs => by
    rw [List.forall_mem_cons] at hvs
    simp only [placeVars?, placeVars, varMark?_eq hp hvs.1, markVar?_eq hp hvs.1, Option.bind_eq_bind,
      Option.bind_some, placeVars?_eq (hp.markVar v .placed) hvs.2]
    split
    · rfl
    · exact placeVars?_eq hp hvs.2

theorem placeClauses?_eq : ∀ {cs : List ClauseId} {p : Pass}, p.Fits f → (∀ c ∈ cs, c ∈ f.clauseIds) →
    p.placeClauses? cs = some (p.placeClauses cs)
  | [], _, _, _ => rfl
  | c :: cs, p, hp, hcs => by
    rw [List.forall_mem_cons] at hcs
    simp only [placeClauses?, placeClauses, clauseMark?_eq hp hcs.1, markClause?_eq hp hcs.1, Option.bind_eq_bind,
      Option.bind_some, placeClauses?_eq (hp.markClause c .placed) hcs.2, placeClauses?_eq hp hcs.2]
    cases p.clauseMark c <;> rfl

theorem takeComponent?_eq (hfit : super.Within f) {p : Pass} (hp : p.Fits f) :
    p.takeComponent? super = some (p.takeComponent super) := by
  obtain ⟨-, -, hvars, hclauses, hscores⟩ := placeVars_reads super.vars p hfit.nodup_vars
  have hfits : (p.placeVars super.vars).2.Fits f :=
    ⟨hvars.trans hp.vars, (congrArg Table.size hclauses).trans hp.clauses,
      (congrArg Table.size hscores).trans hp.scores⟩
  simp only [takeComponent?, takeComponent, placeVars?_eq hp hfit.var_id_le, placeClauses?_eq hfits hfit.clause_mem,
    Option.bind_eq_bind, Option.bind_some]
  rfl

theorem begin?_eq (hfit : super.Within f) (ha : a.varCount = f.varCount) {p : Pass} (hp : p.Fits f) :
    p.begin? a super = some (p.begin a super) := by
  have hstart : ({ p with
      vars := .replicate p.vars.size .outside
      clauses := .replicate p.clauses.size .outside } : Pass).Fits f :=
    ⟨(Table.size_replicate ..).trans hp.vars, (Table.size_replicate ..).trans hp.clauses, hp.scores⟩
  have hvars := foldlM_eq_some (fun q : Pass => q.Fits f) super.vars (fun v hv q hq => by
    have hle := hfit.var_id_le v hv
    have hentered : enterVar? a q v = some (enterVar a q v) := by
      rw [enterVar?, enterVar, Assignment.isActive?_eq (ha ▸ hle)]
      simp only [Option.bind_eq_bind, Option.bind_some, markVar?_eq hq hle, setScore?_eq (hq.markVar v .unseen) hle]
      split <;> rfl
    refine ⟨hentered, ?_⟩
    rw [enterVar]
    split
    · exact (hq.markVar v .unseen).setScore v 0
    · exact hq) _ hstart
  have hclauses := foldlM_eq_some (fun q : Pass => q.Fits f) super.clauses (fun c hc q hq =>
    ⟨markClause?_eq hq (hfit.clause_mem c hc) .unseen, hq.markClause c .unseen⟩) _ hvars.2
  simp only [begin?, begin, hvars.1, hclauses.1, Option.bind_eq_bind, Option.bind_some]

theorem splitFrom?_eq (hfit : super.Within f) (ha : a.varCount = f.varCount)
    (hroom : 2 * f.longs.length + f.varCount + 2 < wordSize) : ∀ {vs : List Var} {p : Pass}, Between f a super p →
    Fresh p → Roomy a super p → (∀ v ∈ vs, v.id ≤ f.varCount) →
    splitFrom? (.ofFormula f) a super p vs = some (splitFrom (.ofFormula f) a super p vs)
  | [], _, _, _, _, _ => rfl
  | v :: vs, p, hb, hfresh, hroomy, hvs => by
    rw [List.forall_mem_cons] at hvs
    rw [splitFrom?, splitFrom, varMark?_eq hb.fits hvs.1, Option.bind_eq_bind, Option.bind_some]
    split
    · exact splitFrom?_eq hfit ha hroom hb hfresh hroomy hvs.2
    · rename_i hv
      simp only [ne_eq, Decidable.not_not] at hv
      obtain ⟨hexplore, hroomy'⟩ := explore?_eq hfit ha hroom hb.toReady hfresh hroomy hv
      simp only [hexplore, explore]
      by_cases hsize : (p.search (.ofFormula f) a v).worklist.size = 1
      · obtain ⟨hb', hplaced⟩ := hb.next_isolated hfit hfresh hv hsize
        have hrest := splitFrom?_eq hfit ha hroom hb' hplaced.fresh (fun u htu => hroomy' u htu) hvs.2
        simp only [if_pos hsize, hrest, Option.bind_eq_bind, Option.bind_some, Option.pure_def]
      · obtain ⟨hb', hplaced⟩ := hb.next_found hfit hfresh hv hsize
        have hscores := takeComponent_scores hfit.nodup_vars hfit.nodup_clauses (p.search (.ofFormula f) a v)
        have hroomy'' : Roomy a super ((p.search (.ofFormula f) a v).takeComponent super).2.2 := fun u htu => by
          rw [score, hscores]
          exact hroomy' u htu
        have hrest := splitFrom?_eq hfit ha hroom hb' hplaced.fresh hroomy'' hvs.2
        have htake := takeComponent?_eq hfit (hb.toReady.search hfit hv).fits
        simp only [if_neg hsize, htake, hrest, Option.bind_eq_bind, Option.bind_some, Option.pure_def]

/-- A pass over a component never goes beyond a table, a word or zero. -/
theorem split?_eq (hfit : super.Within f) (ha : a.varCount = f.varCount)
    (hroom : 2 * f.longs.length + f.varCount + 2 < wordSize) {p : Pass} (hp : p.Fits f) :
    p.split? (.ofFormula f) a super = some (p.split (.ofFormula f) a super) := by
  have hb := begin_between (a := a) hfit hp
  obtain ⟨hfresh, -⟩ := begin_scores (a := a) hfit hp
  obtain ⟨-, hvars, -⟩ := begin_reads (a := a) hfit hp
  have hroomy : Roomy a super (p.begin a super) := fun u htu => by
    rw [hfresh u ((hvars u).trans (if_pos htu))]
    omega
  rw [split?, begin?_eq hfit ha hp, Option.bind_eq_bind, Option.bind_some]
  exact splitFrom?_eq hfit ha hroom hb hfresh hroomy hfit.var_id_le

end Pass

end ModelCount
