/-
The scores of a pass in closed form. A variable scores one for every clause without a true literal that
mentions it, one more for each of these clauses that the search met at the variable, and one for each
end of a binary clause through which the search found a variable. A search visits its worklist in order and
follows the binary clauses of a variable before its long ones, so all of this can be read off the worklist.
-/
import ModelCount.Proofs.Pass.Split

namespace ModelCount

/-! ## The closed form -/

namespace Formula

instance (f : Formula) (v w : Var) : Decidable (f.Shares v w) :=
  inferInstanceAs (Decidable (∃ b ∈ f.binaries, (b.1.var = v ∧ b.2.var = w) ∨ (b.1.var = w ∧ b.2.var = v)))

instance (f : Formula) (a : Assignment) (super : Component) : DecidableRel (f.linkGraph a super).Adj := fun v w =>
  inferInstanceAs (Decidable (v ≠ w ∧ super.TakesPart a v ∧ super.TakesPart a w ∧
    (f.Shares v w ∨ ∃ c ∈ super.clauses, ¬ f.Satisfied a c ∧ f.Mentions c v ∧ f.Mentions c w)))

variable (f : Formula) (a : Assignment) (super : Component)

/-- The long clauses of the component that have no true literal. -/
def openClauses : List ClauseId := super.clauses.filter fun c => ¬ f.Satisfied a c

/-- The first variable of a worklist that the clause mentions, which is where the search meets it. -/
def metAt (worklist : List Var) (c : ClauseId) : Option Var := worklist.find? fun v => f.Mentions c v

/-- The variable through whose binary clauses the search finds `w`, if it finds `w` in this way: the first
variable of the worklist that is linked to `w` at all, if it shares a binary clause with `w`. -/
def linkSource (worklist : List Var) (w : Var) : Option Var :=
  (worklist.find? fun v => (f.linkGraph a super).Adj v w).filter fun v => f.Shares v w

/-- The score that a search with the given worklist gives the variable for the given clauses. The seed at
the head of the worklist was not found through any clause. -/
def scoreFor (clauses : List ClauseId) (worklist : List Var) (v : Var) : Nat :=
  clauses.countP (fun c => f.Mentions c v) + clauses.countP (fun c => f.metAt worklist c = some v) +
    worklist.tail.countP (fun w => f.linkSource a super worklist w = some v) +
    if v ∈ worklist.tail ∧ (f.linkSource a super worklist v).isSome then 1 else 0

/-- The score that a pass over the component leaves for a variable of the worklist. -/
def expectedScore (worklist : List Var) (v : Var) : Nat :=
  f.scoreFor a super (f.openClauses a super) worklist v

variable {f a super} {worklist : List Var} {v w : Var} {c : ClauseId}

theorem mem_openClauses : c ∈ f.openClauses a super ↔ c ∈ super.clauses ∧ ¬ f.Satisfied a c := by
  simp [openClauses]

theorem mentions_of_metAt (h : f.metAt worklist c = some v) : f.Mentions c v := by
  simpa using List.find?_some h

theorem mem_of_metAt (h : f.metAt worklist c = some v) : v ∈ worklist := List.mem_of_find?_eq_some h

theorem mem_of_linkSource (h : f.linkSource a super worklist w = some v) : v ∈ worklist :=
  List.mem_of_find?_eq_some (Option.filter_eq_some_iff.1 h).1

/-! ## Longer worklists -/

theorem find?_append_of_mem {P : Var → Bool} (h : ∃ u ∈ worklist, P u = true) (new : List Var) :
    (worklist ++ new).find? P = worklist.find? P := by
  rw [List.find?_append, Option.or_of_isSome]
  rw [List.find?_isSome]
  exact h

/-- The first element of a list that has a property, by its position. -/
theorem find?_of_take {P : Var → Bool} {position : Nat} (hv : worklist[position]? = some v) (hP : P v = true)
    (hno : ∀ u ∈ worklist.take position, P u = false) : worklist.find? P = some v := by
  obtain ⟨hlt, hget⟩ := List.getElem?_eq_some_iff.1 hv
  rw [← List.take_append_drop position worklist, List.find?_append, List.drop_eq_getElem_cons hlt, hget,
    List.find?_cons_of_pos hP, Option.or_eq_some_iff]
  exact .inr ⟨List.find?_eq_none.2 fun u hu => by simp [hno u hu], rfl⟩

/-- What a worklist and its clauses need for their scores to last while the worklist grows. -/
structure Anchored (f : Formula) (a : Assignment) (super : Component) (clauses : List ClauseId) (worklist : List Var) :
    Prop where
  ne_nil : worklist ≠ []
  met : ∀ c ∈ clauses, ∃ u ∈ worklist, f.Mentions c u
  linked : ∀ w ∈ worklist.tail, ∃ u ∈ worklist, (f.linkGraph a super).Adj u w

section

variable {clauses : List ClauseId} {new : List Var}

theorem Anchored.tail_append (h : Anchored f a super clauses worklist) (new : List Var) :
    (worklist ++ new).tail = worklist.tail ++ new := List.tail_append_of_ne_nil h.ne_nil

theorem Anchored.append (h : Anchored f a super clauses worklist)
    (hnew : ∀ w ∈ new, ∃ u ∈ worklist, (f.linkGraph a super).Adj u w) :
    Anchored f a super clauses (worklist ++ new) := by
  refine ⟨by simp [h.ne_nil], fun c hc => ?_, ?_⟩
  · obtain ⟨u, hu, hcu⟩ := h.met c hc
    exact ⟨u, List.mem_append_left _ hu, hcu⟩
  · rw [h.tail_append]
    refine fun w hw => (List.mem_append.1 hw).elim (fun hw => ?_) fun hw => ?_
    · obtain ⟨u, hu, huw⟩ := h.linked w hw
      exact ⟨u, List.mem_append_left _ hu, huw⟩
    · obtain ⟨u, hu, huw⟩ := hnew w hw
      exact ⟨u, List.mem_append_left _ hu, huw⟩

theorem Anchored.cons (h : Anchored f a super clauses worklist) (hv : v ∈ worklist) (hcv : f.Mentions c v) :
    Anchored f a super (c :: clauses) worklist :=
  ⟨h.ne_nil, List.forall_mem_cons.2 ⟨⟨v, hv, hcv⟩, h.met⟩, h.linked⟩

theorem Anchored.metAt_append (h : Anchored f a super clauses worklist) (new : List Var) (hc : c ∈ clauses) :
    f.metAt (worklist ++ new) c = f.metAt worklist c := by
  obtain ⟨u, hu, hcu⟩ := h.met c hc
  exact find?_append_of_mem ⟨u, hu, by simpa using hcu⟩ new

theorem Anchored.linkSource_append (h : Anchored f a super clauses worklist) (new : List Var) (hw : w ∈ worklist.tail) :
    f.linkSource a super (worklist ++ new) w = f.linkSource a super worklist w := by
  obtain ⟨u, hu, huw⟩ := h.linked w hw
  rw [linkSource, linkSource, find?_append_of_mem ⟨u, hu, by simpa using huw⟩]

/-- What new variables of the worklist add to a score. -/
theorem Anchored.scoreFor_append (h : Anchored f a super clauses worklist) (hnew : ∀ u ∈ worklist, u ∉ new) :
    f.scoreFor a super clauses (worklist ++ new) v = f.scoreFor a super clauses worklist v +
      new.countP (fun w => f.linkSource a super (worklist ++ new) w = some v) +
      if v ∈ new ∧ (f.linkSource a super (worklist ++ new) v).isSome then 1 else 0 := by
  have hmet : clauses.countP (fun c => f.metAt (worklist ++ new) c = some v) =
      clauses.countP fun c => f.metAt worklist c = some v :=
    List.countP_congr fun c hc => by rw [h.metAt_append new hc]
  have hsource : worklist.tail.countP (fun w => f.linkSource a super (worklist ++ new) w = some v) =
      worklist.tail.countP fun w => f.linkSource a super worklist w = some v :=
    List.countP_congr fun w hw => by rw [h.linkSource_append new hw]
  simp only [scoreFor, h.tail_append, List.countP_append, hmet, hsource, List.mem_append]
  -- A variable was found at most once, so it is in one of the two parts of the worklist only.
  by_cases hv : v ∈ worklist.tail
  · have hn : v ∉ new := hnew v (List.mem_of_mem_tail hv)
    simp only [hv, hn, true_or, true_and, false_and, if_false, h.linkSource_append new hv]
    omega
  · simp only [hv, false_or, false_and, if_false]
    omega

/-- Variables that were not found through a binary clause add nothing. -/
theorem Anchored.scoreFor_append_of_none (h : Anchored f a super clauses worklist) (hnew : ∀ u ∈ worklist, u ∉ new)
    (hnone : ∀ w ∈ new, f.linkSource a super (worklist ++ new) w = none) :
    f.scoreFor a super clauses (worklist ++ new) v = f.scoreFor a super clauses worklist v := by
  have hcount : new.countP (fun w => f.linkSource a super (worklist ++ new) w = some v) = 0 :=
    List.countP_eq_zero.2 fun w hw => by simp [hnone w hw]
  have hno : ¬ (v ∈ new ∧ (f.linkSource a super (worklist ++ new) v).isSome) := by
    rintro ⟨hv, hsome⟩
    simp [hnone v hv] at hsome
  rw [h.scoreFor_append hnew, hcount, if_neg hno, Nat.add_zero]

/-- A variable found through a binary clause scores one, and so does the variable it was found from. -/
theorem Anchored.scoreFor_concat (h : Anchored f a super clauses worklist) (hw : w ∉ worklist) {u : Var}
    (hu : f.linkSource a super (worklist ++ [w]) w = some u) :
    f.scoreFor a super clauses (worklist ++ [w]) v =
      f.scoreFor a super clauses worklist v + (if u = v then 1 else 0) + if w = v then 1 else 0 := by
  have hnew : ∀ x ∈ worklist, x ∉ [w] := fun x hx hmem => by
    rw [List.mem_singleton] at hmem
    exact hw (hmem ▸ hx)
  rw [h.scoreFor_append hnew]
  simp only [List.countP_cons, List.countP_nil, List.mem_singleton, hu]
  by_cases hwv : w = v
  · subst hwv
    simp [hu]
  · simp [hwv, Ne.symm hwv]

theorem scoreFor_cons :
    f.scoreFor a super (c :: clauses) worklist v = f.scoreFor a super clauses worklist v +
      (if f.Mentions c v then 1 else 0) + if f.metAt worklist c = some v then 1 else 0 := by
  simp only [scoreFor, List.countP_cons, decide_eq_true_eq]
  omega

end

end Formula

namespace Pass

/-! ## What the operations of a search add -/

theorem score_raise {p : Pass} {v : Var} (hv : v.index < p.scores.size) (w : Var) :
    (p.raise v).score w = p.score w + if v = w then 1 else 0 := by
  simp only [score, raise, setScore, Table.get_set, Var.index_inj]
  by_cases h : v = w
  · subst h
    simp [hv]
  · simp [h]

theorem score_meet {p : Pass} {v : Var} (hv : v.index < p.scores.size) (w : Var) :
    (p.meet v).score w = p.score w + if v = w then 1 else 0 := by
  rw [← score_raise hv w, meet]
  split <;> rfl

theorem size_scores_meet (p : Pass) (v : Var) : (p.meet v).scores.size = p.scores.size := by
  simp only [meet]
  split <;> exact Table.size_set ..

theorem size_scores_meetAll (lits : List Lit) : ∀ p : Pass, (p.meetAll lits).scores.size = p.scores.size := by
  induction lits with
  | nil => exact fun _ => rfl
  | cons l lits ih => exact fun p => (ih (p.meet l.var)).trans (size_scores_meet p l.var)

theorem score_meetAll (lits : List Lit) : ∀ {p : Pass}, (∀ l ∈ lits, l.var.index < p.scores.size) → ∀ w,
    (p.meetAll lits).score w = p.score w + lits.countP fun l => l.var = w := by
  induction lits with
  | nil => exact fun _ _ => rfl
  | cons l lits ih =>
    intro p hlits w
    rw [List.forall_mem_cons] at hlits
    have htail := ih (p := p.meet l.var) (by simpa only [size_scores_meet] using hlits.2) w
    rw [List.countP_cons]
    refine htail.trans ?_
    rw [score_meet hlits.1]
    simp only [decide_eq_true_eq]
    omega

/-- In a clause with distinct variables, each variable is met at most once. -/
theorem countP_var_eq {lits : List Lit} (hnd : (lits.map Lit.var).Nodup) (w : Var) :
    (lits.countP fun l => l.var = w) = if ∃ l ∈ lits, l.var = w then 1 else 0 := by
  have hcount : (lits.countP fun l => l.var = w) = (lits.map Lit.var).count w := by
    rw [List.count, List.countP_map]
    exact List.countP_congr fun l _ => by simp
  rw [hcount, hnd.count]
  simp

theorem nodup_inside (p : Pass) {f : Formula} {c : ClauseId} (hc : c ∈ f.clauseIds) :
    ((p.inside (f.lits c)).map Lit.var).Nodup :=
  (f.long_nodup _ (Formula.lits_mem hc)).sublist (List.filter_sublist.map _)

/-- A clause that was met counts for its variables that take part and once more for `v`. -/
theorem score_meetClause {p : Pass} {lits : List Lit} {v : Var} {c : ClauseId} {m : ClauseMark}
    (hlits : ∀ l ∈ lits, l.var.index < p.scores.size) (hnd : (lits.map Lit.var).Nodup) (hv : v.index < p.scores.size)
    (u : Var) : (((p.meetAll lits).markClause c m).raise v).score u =
      p.score u + (if ∃ l ∈ lits, l.var = u then 1 else 0) + if v = u then 1 else 0 := by
  rw [score_raise (by simpa [markClause, size_scores_meetAll] using hv), ← countP_var_eq hnd,
    ← score_meetAll lits hlits]
  rfl

/-- Meeting literals reaches no variables but theirs. -/
theorem mem_meetAll (lits : List Lit) : ∀ {p : Pass} {w : Var}, w ∈ (p.meetAll lits).worklist.toList →
    w ∈ p.worklist.toList ∨ ∃ l ∈ lits, l.var = w := by
  induction lits with
  | nil => exact fun h => .inl h
  | cons l lits ih =>
    intro p w h
    have hmeet : w ∈ (p.meet l.var).worklist.toList → w ∈ p.worklist.toList ∨ w = l.var := by
      simp only [meet]
      split
      · simp
      · exact .inl
    rcases ih (p := p.meet l.var) h with h | ⟨m, hm, rfl⟩
    · rcases hmeet h with h | rfl
      · exact .inl h
      · exact .inr ⟨l, List.mem_cons_self .., rfl⟩
    · exact .inr ⟨m, List.mem_cons_of_mem _ hm, rfl⟩

/-! ## The search under way -/

variable {f : Formula} {a : Assignment} {super : Component}

/-- The state of a search that visited the first `position` variables of its worklist and met the clauses
`clauses`, apart from those that turned out to be satisfied. -/
structure Scoring (f : Formula) (a : Assignment) (super : Component) (p₀ : Pass) (seed : Var) (position : Nat)
    (clauses : List ClauseId) (p : Pass) : Prop extends Searching f a super p₀ seed p where
  visited : VisitedBefore f a super p₀ position p
  anchored : f.Anchored a super clauses p.worklist.toList
  nodup_clauses : clauses.Nodup
  mem_clauses : ∀ c, c ∈ clauses ↔ p₀.clauseMark c = .unseen ∧ p.clauseMark c ≠ .unseen ∧ ¬ f.Satisfied a c
  score : ∀ u, p.score u = p₀.score u +
    if super.TakesPart a u then f.scoreFor a super clauses p.worklist.toList u else 0

section

variable {p₀ p : Pass} {seed v : Var} {c : ClauseId} {position : Nat} {clauses : List ClauseId}

/-- A variable that was not reached yet is not linked to a visited one. -/
theorem Scoring.not_adj (hr : Ready f a super p₀) (h : Scoring f a super p₀ seed position clauses p) {u w : Var}
    (hu : u ∈ p.worklist.toList.take position) (hw : w ∉ p.worklist.toList) : ¬ (f.linkGraph a super).Adj u w := by
  have hmem := List.mem_of_mem_take hu
  rintro ⟨-, -, htw, hshares | ⟨c, hc, hsat, hcu, hcw⟩⟩
  · exact hw ((h.visited u hu).shares w hshares htw)
  · have h0 := hr.clause_unseen c hc hsat u hcu (h.reachable u hmem).1
    exact hw (h.met c h0 ((h.visited u hu).mentions c hcu h0) hsat w hcw htw)

/-- The first variable linked to one that was not reached yet is the one being visited. -/
theorem Scoring.find?_adj (hr : Ready f a super p₀) (h : Scoring f a super p₀ seed position clauses p)
    (hv : p.worklist.toList[position]? = some v) {w : Var} (hw : w ∉ p.worklist.toList)
    (hadj : (f.linkGraph a super).Adj v w) (new : List Var) :
    ((p.worklist.toList ++ new).find? fun u => (f.linkGraph a super).Adj u w) = some v := by
  rw [Formula.find?_append_of_mem ⟨v, List.mem_of_getElem? hv, by simpa using hadj⟩]
  exact Formula.find?_of_take hv (by simpa using hadj) fun u hu => by simpa using h.not_adj hr hu hw

/-- A clause that is still unseen is met at the variable being visited. -/
theorem Scoring.metAt_eq (h : Scoring f a super p₀ seed position clauses p)
    (hv : p.worklist.toList[position]? = some v) (hu : p.clauseMark c = .unseen)
    (hcv : f.Mentions c v) (new : List Var) : f.metAt (p.worklist.toList ++ new) c = some v := by
  rw [Formula.metAt, Formula.find?_append_of_mem ⟨v, List.mem_of_getElem? hv, by simpa using hcv⟩]
  refine Formula.find?_of_take hv (by simpa using hcv) fun u hmem => ?_
  have hnot : ¬ f.Mentions c u := fun hcu =>
    (h.visited u hmem).mentions c hcu (h.unseen_before hu) hu
  simpa using hnot

/-- The scores have a cell for every variable that takes part. -/
theorem Scoring.index_lt (hfit : super.Within f) (h : Scoring f a super p₀ seed position clauses p) {u : Var}
    (hu : super.TakesPart a u) : u.index < p.scores.size := by
  rw [h.fits.scores]
  exact Var.index_lt_iff.2 (hfit.var_id_le u hu.1)

/-- Following a link from the variable being visited. -/
theorem Scoring.follow (hfit : super.Within f) (hr : Ready f a super p₀)
    (h : Scoring f a super p₀ seed position clauses p) (hv : p.worklist.toList[position]? = some v) {w : Var}
    (hvw : f.Shares v w) : Scoring f a super p₀ seed position clauses (Pass.follow v p w) := by
  have hmem := List.mem_of_getElem? hv
  obtain ⟨hs, hg, -⟩ := h.toSearching.follow hr hmem hvw
  have hvisited := h.visited.grows hv hg
  by_cases hw : p.varMark w = .unseen
  · have hq : Pass.follow v p w = ((p.reach w).raise v).raise w := if_pos hw
    have hwlist : (Pass.follow v p w).worklist.toList = p.worklist.toList ++ [w] := by
      rw [hq]
      exact Array.toList_push
    have hnot : w ∉ p.worklist.toList := fun h' => by
      rw [h.varMark, if_pos h'] at hw
      cases hw
    have htv := h.takesPart hr hmem
    have htw : super.TakesPart a w := hs.takesPart hr (by rw [hwlist]; simp)
    have hadj := Formula.linkGraph_of_shares htv htw hvw
    -- No variable visited before is linked to `w`, not even through a long clause.
    have hsource : f.linkSource a super (p.worklist.toList ++ [w]) w = some v := by
      rw [Formula.linkSource, h.find?_adj hr hv hnot hadj [w]]
      simp [hvw]
    refine ⟨hs, hvisited, ?_, h.nodup_clauses, fun c => ?_, fun u => ?_⟩
    · rw [hwlist]
      exact h.anchored.append (List.forall_mem_singleton.2 ⟨v, hmem, hadj⟩)
    · rw [h.mem_clauses, hq]
      rfl
    · have hscore : (Pass.follow v p w).score u = p.score u + (if v = u then 1 else 0) + if w = u then 1 else 0 := by
        rw [hq, score_raise (by simpa [raise, setScore, reach, markVar] using h.index_lt hfit htw),
          score_raise (by simpa [reach, markVar] using h.index_lt hfit htv)]
        rfl
      rw [hscore, h.score, hwlist, h.anchored.scoreFor_concat hnot hsource]
      split
      · omega
      · -- Both ends of the link take part, and `u` does not.
        rename_i hu
        have hvu : v ≠ u := by rintro rfl; exact hu htv
        have hwu : w ≠ u := by rintro rfl; exact hu htw
        rw [if_neg hvu, if_neg hwu]
  · have hq : Pass.follow v p w = p := if_neg hw
    rwa [hq]

/-- Marking a clause that is satisfied changes no score. -/
theorem Scoring.markSatisfied (h : Scoring f a super p₀ seed position clauses p)
    (hs : Searching f a super p₀ seed (p.markClause c (f.metMark a super c)))
    (hv : p.worklist.toList[position]? = some v) (hsat : f.Satisfied a c) :
    Scoring f a super p₀ seed position clauses (p.markClause c (f.metMark a super c)) := by
  have hg : Grows p (p.markClause c (f.metMark a super c)) := grows_markClause p c Formula.metMark_ne_unseen
  refine ⟨hs, h.visited.grows hv hg, h.anchored, h.nodup_clauses, fun d => ?_, h.score⟩
  rw [h.mem_clauses, clauseMark_markClause]
  by_cases hd : c = d
  · subst hd
    simp [hsat]
  · rw [if_neg fun h' => hd h'.1]

/-- What meeting the literals of a clause reaches was not found through a binary clause, once those of the
variable being visited were followed. -/
theorem Scoring.meetAll_reaches (hr : Ready f a super p₀) (h : Scoring f a super p₀ seed position clauses p)
    (hv : p.worklist.toList[position]? = some v)
    (hfollowed : ∀ w, f.Shares v w → super.TakesPart a w → w ∈ p.worklist.toList) (hc : c ∈ super.clauses)
    (hsat : ¬ f.Satisfied a c) (hcv : f.Mentions c v) :
    ∃ new, (p.meetAll (p.inside (f.lits c))).worklist.toList = p.worklist.toList ++ new ∧
      (∀ u ∈ p.worklist.toList, u ∉ new) ∧ (∀ w ∈ new, (f.linkGraph a super).Adj v w) ∧
      ∀ w ∈ new, f.linkSource a super (p.worklist.toList ++ new) w = none := by
  have hmem := List.mem_of_getElem? hv
  obtain ⟨hs, hg, -⟩ := Searching.meetAll hr _ h.toSearching hmem fun l hl => h.inside_linked hr hmem hc hsat hcv hl
  obtain ⟨new, hnew⟩ := hg.worklist
  have hdisjoint : ∀ u ∈ p.worklist.toList, u ∉ new := fun u hu hun => by
    have hnd := hs.nodup
    rw [← hnew] at hnd
    exact (List.nodup_append.1 hnd).2.2 u hu u hun rfl
  have hadj : ∀ w ∈ new, (f.linkGraph a super).Adj v w := fun w hw => by
    have hnot : w ∉ p.worklist.toList := fun h' => hdisjoint w h' hw
    obtain ⟨l, hl, rfl⟩ := (mem_meetAll _ (hnew ▸ List.mem_append_right _ hw)).resolve_left hnot
    refine (h.inside_linked hr hmem hc hsat hcv hl).resolve_left ?_
    rintro rfl
    exact hnot hmem
  refine ⟨new, hnew.symm, hdisjoint, hadj, fun w hw => ?_⟩
  have hnot : w ∉ p.worklist.toList := fun h' => hdisjoint w h' hw
  -- The binary clauses of `v` come before its long ones, so `w` would have been found through them.
  have hshares : ¬ f.Shares v w := fun h' => hnot (hfollowed w h' (hadj w hw).2.2.1)
  rw [Formula.linkSource, h.find?_adj hr hv hnot (hadj w hw) new]
  simp [hshares]

/-- The variables that meeting a clause raises are those of it that take part. -/
theorem Scoring.exists_inside (hr : Ready f a super p₀) (h : Scoring f a super p₀ seed position clauses p) {u : Var} :
    (∃ l ∈ p.inside (f.lits c), l.var = u) ↔ super.TakesPart a u ∧ f.Mentions c u := by
  simp only [h.mem_inside hr]
  constructor
  · rintro ⟨l, ⟨hl, htl⟩, rfl⟩
    exact ⟨htl, l, hl, rfl⟩
  · rintro ⟨htu, l, hl, rfl⟩
    exact ⟨l, ⟨hl, htu⟩, rfl⟩

/-- Meeting a clause that is not satisfied. -/
theorem Scoring.meetClause (hfit : super.Within f) (hr : Ready f a super p₀)
    (h : Scoring f a super p₀ seed position clauses p) (hs : Searching f a super p₀ seed (meetClause f a super v p c))
    (hg : Grows p (meetClause f a super v p c)) (hv : p.worklist.toList[position]? = some v)
    (hfollowed : ∀ w, f.Shares v w → super.TakesPart a w → w ∈ p.worklist.toList) (hu : p.clauseMark c = .unseen)
    (hsat : ¬ f.Satisfied a c) (hcv : f.Mentions c v) :
    Scoring f a super p₀ seed position (c :: clauses) (meetClause f a super v p c) := by
  have hmem := List.mem_of_getElem? hv
  have hc := hr.clause_mem c (h.unseen_before hu)
  have hvisited := h.visited.grows hv hg
  obtain ⟨new, hlist, hdisjoint, hadj, hnone⟩ := h.meetAll_reaches hr hv hfollowed hc hsat hcv
  obtain ⟨-, -, -, hmarks⟩ :=
    Searching.meetAll hr _ h.toSearching hmem fun l hl => h.inside_linked hr hmem hc hsat hcv hl
  have hlt := index_lt_of_clauseMark (p := p.meetAll (p.inside (f.lits c))) (c := c) (by rw [hmarks, hu]; simp)
  refine ⟨hs, hvisited, ?_, ?_, fun d => ?_, fun u => ?_⟩
  · show f.Anchored a super (c :: clauses) (p.meetAll (p.inside (f.lits c))).worklist.toList
    rw [hlist]
    exact (h.anchored.append fun w hw => ⟨v, hmem, hadj w hw⟩).cons (List.mem_append_left _ hmem) hcv
  · exact List.nodup_cons.2 ⟨fun h' => ((h.mem_clauses c).1 h').2.1 hu, h.nodup_clauses⟩
  · rw [List.mem_cons, h.mem_clauses, Pass.meetClause, clauseMark_raise, clauseMark_markClause, hmarks]
    by_cases hd : c = d
    · subst hd
      simp [hlt, h.unseen_before hu, hsat, Formula.metMark_ne_unseen]
    · simp [hd, Ne.symm hd]
  · have hscore := score_meetClause (p := p) (c := c) (m := f.metMark a super c)
      (fun l hl => h.index_lt hfit ((h.mem_inside hr).1 hl).2)
      (nodup_inside p hcv.mem_clauseIds) (h.index_lt hfit (h.takesPart hr hmem)) u
    rw [Pass.meetClause, hscore, h.score]
    show _ = _ + if super.TakesPart a u then f.scoreFor a super (c :: clauses)
      (p.meetAll (p.inside (f.lits c))).worklist.toList u else 0
    -- The clause is new, and what it reaches adds nothing of its own.
    rw [hlist, Formula.scoreFor_cons, h.anchored.scoreFor_append_of_none hdisjoint hnone,
      h.metAt_eq hv hu hcv]
    simp only [h.exists_inside hr, Option.some.injEq]
    by_cases htu : super.TakesPart a u
    · simp only [htu, true_and, if_true]
      omega
    · have hvu : v ≠ u := by rintro rfl; exact htu (h.takesPart hr hmem)
      simp only [htu, false_and, if_false, if_neg hvu]

/-- Handling a clause of the variable being visited, all of whose links through binary clauses were followed. -/
theorem Scoring.visitClause (hfit : super.Within f) (hr : Ready f a super p₀)
    (h : Scoring f a super p₀ seed position clauses p) (hv : p.worklist.toList[position]? = some v)
    (hfollowed : ∀ w, f.Shares v w → super.TakesPart a w → w ∈ p.worklist.toList)
    (hcv : f.Mentions c v) :
    ∃ clauses', Scoring f a super p₀ seed position clauses' (Pass.visitClause (.ofFormula f) a v p c) := by
  have hmem := List.mem_of_getElem? hv
  obtain ⟨hs, hg, -⟩ := h.toSearching.visitClause hr hmem hcv
  rw [h.toSearching.visitClause_eq hr] at hs hg ⊢
  split
  · exact ⟨clauses, h⟩
  · rename_i hu
    rw [if_neg hu] at hs hg
    simp only [ne_eq, Decidable.not_not] at hu
    split
    · rename_i hsat
      rw [if_pos hsat] at hs
      exact ⟨clauses, h.markSatisfied hs hv hsat⟩
    · rename_i hsat
      rw [if_neg hsat] at hs hg
      exact ⟨c :: clauses, h.meetClause hfit hr hs hg hv hfollowed hu hsat hcv⟩

theorem Scoring.followAll (hfit : super.Within f) (hr : Ready f a super p₀) (ws : List Var) :
    ∀ {p : Pass}, Scoring f a super p₀ seed position clauses p → p.worklist.toList[position]? = some v →
      (∀ w ∈ ws, f.Shares v w) → Scoring f a super p₀ seed position clauses (ws.foldl (Pass.follow v) p) := by
  induction ws with
  | nil => exact fun h _ _ => h
  | cons w ws ih =>
    intro p h hv hvw
    rw [List.forall_mem_cons] at hvw
    obtain ⟨-, hg, -⟩ := h.toSearching.follow hr (List.mem_of_getElem? hv) hvw.1
    exact ih (h.follow hfit hr hv hvw.1) (VisitedBefore.getElem?_grows hv hg) hvw.2

theorem Scoring.visitClauses (hfit : super.Within f) (hr : Ready f a super p₀) (cs : List ClauseId) :
    ∀ {p : Pass} {clauses : List ClauseId}, Scoring f a super p₀ seed position clauses p →
      p.worklist.toList[position]? = some v → (∀ w, f.Shares v w → super.TakesPart a w → w ∈ p.worklist.toList) →
      (∀ c ∈ cs, f.Mentions c v) →
      ∃ clauses', Scoring f a super p₀ seed position clauses' (cs.foldl (Pass.visitClause (.ofFormula f) a v) p) := by
  induction cs with
  | nil => exact fun h _ _ _ => ⟨_, h⟩
  | cons c cs ih =>
    intro p clauses h hv hfollowed hcs
    rw [List.forall_mem_cons] at hcs
    obtain ⟨-, hg, -⟩ := h.toSearching.visitClause hr (List.mem_of_getElem? hv) hcs.1
    obtain ⟨clauses', h'⟩ := h.visitClause hfit hr hv hfollowed hcs.1
    exact ih h' (VisitedBefore.getElem?_grows hv hg) (fun w hw htw => hg.mem (hfollowed w hw htw)) hcs.2

/-- Visiting one more variable of the worklist. -/
theorem Scoring.visit (hfit : super.Within f) (hr : Ready f a super p₀)
    (h : Scoring f a super p₀ seed position clauses p) (hv : p.worklist.toList[position]? = some v) :
    ∃ clauses', Scoring f a super p₀ seed (position + 1) clauses' (p.visit (.ofFormula f) a v) := by
  have hmem := List.mem_of_getElem? hv
  have hle := hfit.var_id_le v (h.takesPart hr hmem).1
  have hneighbours : ∀ w ∈ (Adjacency.ofFormula f).neighboursOf v, f.Shares v w := fun w hw =>
    (Adjacency.mem_neighboursOf hle).1 hw
  obtain ⟨hs', hg, hn⟩ := Searching.followAll hr _ h.toSearching hmem hneighbours
  have h' := Scoring.followAll hfit hr _ h hv hneighbours
  obtain ⟨clauses', h''⟩ := Scoring.visitClauses hfit hr ((Adjacency.ofFormula f).clausesOf v) h'
    (VisitedBefore.getElem?_grows hv hg) (fun w hw htw => hn w ((Adjacency.mem_neighboursOf hle).2 hw) htw)
    fun c hc => (Adjacency.mem_clausesOf hle).1 hc
  obtain ⟨-, hg', hvv⟩ := h.toSearching.visit hfit hr hmem
  rw [Pass.visit] at hg' hvv ⊢
  exact ⟨clauses', h''.toSearching, h.visited.visit hv hg' hvv, h''.anchored, h''.nodup_clauses, h''.mem_clauses,
    h''.score⟩

/-- Going on from a position, the search visits its whole worklist. -/
theorem Scoring.spread (hfit : super.Within f) (hr : Ready f a super p₀) :
    ∀ (fuel position : Nat) {p : Pass} {clauses : List ClauseId}, Scoring f a super p₀ seed position clauses p →
      f.varCount < fuel + position →
      ∃ position' clauses',
        Scoring f a super p₀ seed position' clauses' (Pass.spread (.ofFormula f) a fuel position p) ∧
        (Pass.spread (.ofFormula f) a fuel position p).worklist.size ≤ position'
  | 0, position, p, clauses, h, hfuel => by
    have hle := h.length_le hfit hr
    rw [Array.length_toList] at hle
    exact ⟨position, clauses, h, by show p.worklist.size ≤ position; omega⟩
  | fuel + 1, position, p, clauses, h, hfuel => by
    rw [Pass.spread]
    rcases hp : p.worklist[position]? with _ | v
    · exact ⟨position, clauses, h, Array.getElem?_eq_none_iff.1 hp⟩
    · obtain ⟨clauses', h'⟩ := h.visit hfit hr (v := v) (by simpa using hp)
      exact Scoring.spread hfit hr fuel (position + 1) h' (by omega)

/-- The variables that a search did not reach score nothing in it. -/
theorem Scoring.scoreFor_of_not_mem (h : Scoring f a super p₀ seed position clauses p) {u : Var}
    (htu : super.TakesPart a u) (hu : u ∉ p.worklist.toList) :
    f.scoreFor a super clauses p.worklist.toList u = 0 := by
  have hmentions : clauses.countP (fun c => f.Mentions c u) = 0 := List.countP_eq_zero.2 fun c hc hcu => by
    obtain ⟨h0, hmet, hsat⟩ := (h.mem_clauses c).1 hc
    exact hu (h.met c h0 hmet hsat u (by simpa using hcu) htu)
  have hmetAt : clauses.countP (fun c => f.metAt p.worklist.toList c = some u) = 0 :=
    List.countP_eq_zero.2 fun c _ hcu => hu (Formula.mem_of_metAt (by simpa using hcu))
  have hsource : p.worklist.toList.tail.countP
      (fun w => f.linkSource a super p.worklist.toList w = some u) = 0 :=
    List.countP_eq_zero.2 fun w _ hwu => hu (Formula.mem_of_linkSource (by simpa using hwu))
  rw [Formula.scoreFor, hmentions, hmetAt, hsource, if_neg fun h' => hu (List.mem_of_mem_tail h'.1)]

/-- Once all of the worklist is visited, every clause without a true literal that mentions one of its variables
was met. -/
theorem Scoring.mem_iff_open (hr : Ready f a super p₀) (h : Scoring f a super p₀ seed position clauses p)
    (hall : p.worklist.size ≤ position) {u : Var} (hu : u ∈ p.worklist.toList) (hcu : f.Mentions c u) :
    c ∈ clauses ↔ c ∈ f.openClauses a super := by
  rw [Formula.mem_openClauses, h.mem_clauses]
  constructor
  · rintro ⟨h0, -, hsat⟩
    exact ⟨hr.clause_mem c h0, hsat⟩
  · rintro ⟨hc, hsat⟩
    have h0 := hr.clause_unseen c hc hsat u hcu (h.reachable u hu).1
    exact ⟨h0, (h.visited.all hall u hu).mentions c hcu h0, hsat⟩

/-- Two lists without repeats are alike as far as they have the same elements. -/
theorem countP_eq_of_mem_iff {cs ds : List ClauseId} (hcs : cs.Nodup) (hds : ds.Nodup) {P : ClauseId → Bool}
    (h : ∀ c, P c = true → (c ∈ cs ↔ c ∈ ds)) : cs.countP P = ds.countP P := by
  rw [List.countP_eq_length_filter, List.countP_eq_length_filter]
  refine ((List.perm_ext_iff_of_nodup (hcs.filter _) (hds.filter _)).2 fun c => ?_).length_eq
  rw [List.mem_filter, List.mem_filter]
  exact and_congr_left fun hP => h c hP

theorem Scoring.scoreFor_eq_expected (hfit : super.Within f) (hr : Ready f a super p₀)
    (h : Scoring f a super p₀ seed position clauses p) (hall : p.worklist.size ≤ position) {u : Var}
    (hu : u ∈ p.worklist.toList) :
    f.scoreFor a super clauses p.worklist.toList u = f.expectedScore a super p.worklist.toList u := by
  have hnd : (f.openClauses a super).Nodup := hfit.nodup_clauses.filter _
  rw [Formula.expectedScore, Formula.scoreFor, Formula.scoreFor,
    countP_eq_of_mem_iff h.nodup_clauses hnd fun c hcu => h.mem_iff_open hr hall hu (by simpa using hcu),
    countP_eq_of_mem_iff h.nodup_clauses hnd fun c hcu =>
      h.mem_iff_open hr hall hu (Formula.mentions_of_metAt (by simpa using hcu))]

end

/-! ## Whole searches -/

section

variable {p₀ : Pass} {seed : Var}

theorem Ready.scoring (hr : Ready f a super p₀) (hseed : p₀.varMark seed = .unseen) :
    Scoring f a super p₀ seed 0 [] (({ p₀ with worklist := #[] } : Pass).reach seed) := by
  refine ⟨hr.start hseed, .zero _ _, ⟨by simp, fun _ h => by simp at h, fun _ h => by simp at h⟩,
    List.nodup_nil, fun c => ?_, fun u => ?_⟩
  · refine iff_of_false List.not_mem_nil ?_
    rintro ⟨h0, hne, -⟩
    exact hne h0
  · simp [Formula.scoreFor, score, reach, markVar]

/-- At the end of a search all of its worklist is visited. -/
theorem Ready.scoring_search (hfit : super.Within f) (hr : Ready f a super p₀) (hseed : p₀.varMark seed = .unseen) :
    ∃ position clauses, Scoring f a super p₀ seed position clauses (p₀.search (.ofFormula f) a seed) ∧
      (p₀.search (.ofFormula f) a seed).worklist.size ≤ position := by
  have h0 := hr.scoring hseed
  exact Scoring.spread hfit hr _ 0 h0 (by rw [h0.fits.vars]; omega)

/-- A search raises the scores of the variables it reaches, to what is expected. -/
theorem Ready.search_score (hfit : super.Within f) (hr : Ready f a super p₀) (hseed : p₀.varMark seed = .unseen)
    (u : Var) :
    (p₀.search (.ofFormula f) a seed).score u = p₀.score u +
      if u ∈ (p₀.search (.ofFormula f) a seed).worklist.toList then
        f.expectedScore a super (p₀.search (.ofFormula f) a seed).worklist.toList u
      else 0 := by
  obtain ⟨position, clauses, h, hall⟩ := hr.scoring_search hfit hseed
  have hscore := h.score u
  by_cases hu : u ∈ (p₀.search (.ofFormula f) a seed).worklist.toList
  · rw [if_pos hu, hscore, if_pos (h.takesPart hr hu), h.scoreFor_eq_expected hfit hr hall hu]
  · rw [if_neg hu, hscore]
    split
    · rw [h.scoreFor_of_not_mem ‹_› hu]
    · rfl

end

end Pass

end ModelCount
