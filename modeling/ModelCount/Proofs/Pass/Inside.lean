/-
A pass stays inside its super-component. It marks, reaches and scores only variables that take part, whatever
the state it starts from: a variable is reached when its mark is unseen, and beginning a pass marks no other
variable so. What stands in the score of any other variable is left there.
-/
import ModelCount.Pass.Split
import ModelCount.Proofs.Pass.Links

namespace ModelCount

namespace Pass

/-- Since `p`, only variables in `T` were marked, and only their scores were touched. -/
structure Inside (T : Var → Prop) (p q : Pass) : Prop where
  mark : ∀ v, q.varMark v ≠ .outside → T v
  score : ∀ v, ¬ T v → q.score v = p.score v

/-- In the middle of a search, which reached only variables in `T`. -/
structure SearchInside (T : Var → Prop) (p q : Pass) : Prop extends Inside T p q where
  worklist : ∀ v ∈ q.worklist, T v

variable {T : Var → Prop} {p q : Pass}

/-! ## Single changes -/

namespace Inside

theorem markVar (h : Inside T p q) {v : Var} (hv : T v) (m : VarMark) : Inside T p (q.markVar v m) := by
  refine ⟨fun w hw => ?_, h.score⟩
  rw [varMark_markVar] at hw
  split at hw
  · rename_i hvw
    exact hvw.1 ▸ hv
  · exact h.mark w hw

theorem markClause (h : Inside T p q) (c : ClauseId) (m : ClauseMark) : Inside T p (q.markClause c m) := ⟨h.mark, h.score⟩

theorem setScore (h : Inside T p q) {v : Var} (hv : T v) (n : Nat) : Inside T p (q.setScore v n) := by
  refine ⟨h.mark, fun w hw => ?_⟩
  have hne : ¬ (v.index = w.index ∧ w.index < q.scores.size) := fun hvw => hw (Var.index_inj.1 hvw.1 ▸ hv)
  rw [Pass.score, Pass.setScore, Table.get_set, if_neg hne]
  exact h.score w hw

theorem of_isOutside (h : Inside T p q) {v : Var} (hv : q.isOutside v = false) : T v :=
  h.mark v (by simpa [isOutside] using hv)

end Inside

namespace SearchInside

theorem markClause (h : SearchInside T p q) (c : ClauseId) (m : ClauseMark) : SearchInside T p (q.markClause c m) :=
  ⟨h.toInside.markClause c m, h.worklist⟩

theorem raise (h : SearchInside T p q) {v : Var} (hv : T v) : SearchInside T p (q.raise v) :=
  ⟨h.toInside.setScore hv _, h.worklist⟩

theorem reach (h : SearchInside T p q) {v : Var} (hv : T v) : SearchInside T p (q.reach v) := by
  have hm := h.toInside.markVar hv .seen
  refine ⟨⟨hm.mark, hm.score⟩, fun w hw => ?_⟩
  rw [worklist_reach, Array.mem_push] at hw
  exact hw.elim (h.worklist w) fun hw => hw ▸ hv

/-! ## One search -/

theorem follow (h : SearchInside T p q) {v : Var} (hv : T v) (w : Var) : SearchInside T p (q.follow v w) := by
  unfold Pass.follow
  split
  · rename_i hunseen
    have hw := h.mark w (by simp [hunseen])
    exact ((h.reach hw).raise hv).raise hw
  · exact h

theorem meet (h : SearchInside T p q) {v : Var} (hv : T v) : SearchInside T p (q.meet v) := by
  simp only [Pass.meet]
  split
  · exact (h.raise hv).reach hv
  · exact h.raise hv

theorem meetAll (h : SearchInside T p q) {lits : List Lit} (hlits : ∀ l ∈ lits, T l.var) :
    SearchInside T p (q.meetAll lits) :=
  List.foldlRecOn lits _ h fun _ h' l hl => h'.meet (hlits l hl)

variable (adj : Adjacency) (a : Assignment)

theorem visitClause (h : SearchInside T p q) {v : Var} (hv : T v) (c : ClauseId) :
    SearchInside T p (q.visitClause adj a v c) := by
  rw [visitClause_eq]
  split
  · exact h
  · split
    · exact h.markClause c .outside
    · refine ((h.meetAll fun l hl => ?_).markClause c _).raise hv
      exact h.of_isOutside (by simpa using (List.mem_filter.1 hl).2)

theorem visit (h : SearchInside T p q) {v : Var} (hv : T v) : SearchInside T p (q.visit adj a v) :=
  List.foldlRecOn (adj.clausesOf v) _ (List.foldlRecOn (adj.neighboursOf v) _ h fun _ h' w _ => h'.follow hv w)
    fun _ h' c _ => h'.visitClause adj a hv c

theorem spread : ∀ (fuel position : Nat) {q : Pass}, SearchInside T p q → SearchInside T p (q.spread adj a fuel position)
  | 0, _, _, h => h
  | fuel + 1, position, q, h => by
    simp only [Pass.spread]
    split
    · exact h
    · rename_i v hv
      exact spread fuel (position + 1) (h.visit adj a (h.worklist v (Array.mem_of_getElem? hv)))

end SearchInside

/-! ## Whole passes -/

namespace Inside

variable (adj : Adjacency) (a : Assignment)

theorem explore (h : Inside T p q) {seed : Var} (hseed : T seed) : Inside T p (q.explore adj a seed).2 := by
  have hempty : SearchInside T p { q with worklist := #[] } := ⟨⟨h.mark, h.score⟩, by simp⟩
  have hsearch : SearchInside T p (q.search adj a seed) := (hempty.reach hseed).spread adj a _ 0
  simp only [Pass.explore]
  split
  · exact hsearch.toInside.markVar hseed .placed
  · exact hsearch.toInside

theorem placeVars : ∀ (vs : List Var) {q : Pass}, Inside T p q → Inside T p (q.placeVars vs).2
  | [], _, h => h
  | v :: vs, q, h => by
    simp only [Pass.placeVars]
    split
    · rename_i hseen
      exact placeVars vs (h.markVar (h.mark v (by simp [hseen])) .placed)
    · exact placeVars vs h

theorem placeClauses : ∀ (cs : List ClauseId) {q : Pass}, Inside T p q → Inside T p (q.placeClauses cs).2.2
  | [], _, h => h
  | c :: cs, q, h => by
    simp only [Pass.placeClauses]
    split
    · exact placeClauses cs (h.markClause c .placed)
    · exact placeClauses cs (h.markClause c .placed)
    · exact placeClauses cs h

theorem splitFrom (super : Component) : ∀ (vs : List Var) {q : Pass}, Inside T p q →
    Inside T p (q.splitFrom adj a super vs).pass
  | [], _, h => h
  | v :: vs, q, h => by
    simp only [Pass.splitFrom]
    split
    · exact splitFrom super vs h
    · rename_i hunseen
      have hv : T v := h.mark v (by simp [Decidable.not_not.1 hunseen])
      have he := h.explore adj a hv
      split
      · rename_i p₁ hp₁
        rw [hp₁] at he
        exact splitFrom super vs he
      · rename_i p₁ hp₁
        rw [hp₁] at he
        exact splitFrom super vs ((he.placeVars super.vars).placeClauses super.clauses)

end Inside

/-- A pass begins with the variables that take part, and leaves the scores of all others. -/
theorem begin_inside (p : Pass) (a : Assignment) (super : Component) :
    Inside (super.TakesPart a) p (p.begin a super) := by
  have hcleared : Inside (super.TakesPart a) p { p with
      vars := .replicate p.vars.size .outside
      clauses := .replicate p.clauses.size .outside } := by
    refine ⟨fun v hv => (hv ?_).elim, fun _ _ => rfl⟩
    rw [varMark, Table.get_replicate]
    split <;> rfl
  refine List.foldlRecOn super.clauses _ (List.foldlRecOn super.vars _ hcleared fun q h v hv => ?_)
    fun q h c _ => h.markClause c .unseen
  unfold enterVar
  split
  · exact (h.markVar ⟨hv, ‹_›⟩ .unseen).setScore ⟨hv, ‹_›⟩ 0
  · exact h

/-- A pass leaves the score of every variable that takes no part. -/
theorem split_score (p : Pass) (adj : Adjacency) (a : Assignment) (super : Component) {v : Var}
    (hv : ¬ super.TakesPart a v) : (p.split adj a super).pass.score v = p.score v :=
  ((begin_inside p a super).splitFrom adj a super super.vars).score v hv

end Pass

end ModelCount
