/-
Passes that agree. Where a pass goes depends on its marks and its worklist and never on a score, and
a pass sets all marks and the scores of its variables when it begins. So nothing is carried over from
the state that a pass starts from.
-/
import ModelCount.Pass.Split
import ModelCount.Proofs.Pass.Links

namespace ModelCount

namespace Pass

/-- The states have the same marks, and the same scores of the variables in `S`. -/
structure Agree (S : Var → Prop) (p q : Pass) : Prop where
  vars : q.vars = p.vars
  clauses : q.clauses = p.clauses
  size : q.scores.size = p.scores.size
  score : ∀ v, S v → q.score v = p.score v

/-- The states agree in the middle of a search. -/
structure Alike (S : Var → Prop) (p q : Pass) : Prop extends Agree S p q where
  worklist : q.worklist = p.worklist

variable {S : Var → Prop} {p q : Pass}

/-! ## Single changes -/

namespace Agree

theorem varMark (h : Agree S p q) (v : Var) : q.varMark v = p.varMark v := congrArg (·.get v.index) h.vars

theorem clauseMark (h : Agree S p q) (c : ClauseId) : q.clauseMark c = p.clauseMark c :=
  congrArg (·.get c.index) h.clauses

theorem isOutside (h : Agree S p q) (v : Var) : q.isOutside v = p.isOutside v := by
  rw [Pass.isOutside, h.varMark, Pass.isOutside]

theorem markVar (h : Agree S p q) (v : Var) (m : VarMark) : Agree S (p.markVar v m) (q.markVar v m) :=
  ⟨congrArg (·.set v.index m) h.vars, h.clauses, h.size, h.score⟩

theorem markClause (h : Agree S p q) (c : ClauseId) (m : ClauseMark) : Agree S (p.markClause c m) (q.markClause c m) :=
  ⟨h.vars, congrArg (·.set c.index m) h.clauses, h.size, h.score⟩

/-- The score of a variable outside `S` may be set to different values. -/
theorem setScore (h : Agree S p q) (v : Var) {m n : Nat} (hmn : S v → n = m) :
    Agree S (p.setScore v m) (q.setScore v n) := by
  refine ⟨h.vars, h.clauses, (Table.size_set ..).trans (h.size.trans (Table.size_set ..).symm), fun w hw => ?_⟩
  have hscore := h.score w hw
  simp only [Pass.score, Pass.setScore, Table.get_set, h.size] at hscore ⊢
  by_cases hvw : v = w
  · rw [hmn (hvw ▸ hw), hscore]
  · simp only [Var.index_inj, hvw, false_and, if_false, hscore]

end Agree

namespace Alike

theorem markVar (h : Alike S p q) (v : Var) (m : VarMark) : Alike S (p.markVar v m) (q.markVar v m) :=
  ⟨h.toAgree.markVar v m, h.worklist⟩

theorem markClause (h : Alike S p q) (c : ClauseId) (m : ClauseMark) : Alike S (p.markClause c m) (q.markClause c m) :=
  ⟨h.toAgree.markClause c m, h.worklist⟩

theorem raise (h : Alike S p q) (v : Var) : Alike S (p.raise v) (q.raise v) :=
  ⟨h.setScore v fun hv => by rw [h.score v hv], h.worklist⟩

theorem lower (h : Alike S p q) (v : Var) : Alike S (p.lower v) (q.lower v) :=
  ⟨h.setScore v fun hv => by rw [h.score v hv], h.worklist⟩

theorem reach (h : Alike S p q) (v : Var) : Alike S (p.reach v) (q.reach v) := by
  have hm := h.toAgree.markVar v .seen
  exact ⟨⟨hm.vars, hm.clauses, hm.size, hm.score⟩, congrArg (·.push v) h.worklist⟩

/-! ## One search -/

variable (adj : Adjacency) (a : Assignment)

theorem follow (h : Alike S p q) (v w : Var) : Alike S (p.follow v w) (q.follow v w) := by
  unfold Pass.follow
  rw [h.varMark]
  split
  · exact ((h.reach w).raise v).raise w
  · exact h

theorem meet (h : Alike S p q) (v : Var) : Alike S (p.meet v) (q.meet v) := by
  simp only [Pass.meet]
  rw [(h.raise v).varMark]
  split
  · exact (h.raise v).reach v
  · exact h.raise v

theorem undo (h : Alike S p q) (scanned : List Lit) (len : Nat) : Alike S (p.undo scanned len) (q.undo scanned len) := by
  let lowered (p : Pass) : Pass := scanned.foldl (fun p l => if p.isOutside l.var then p else p.lower l.var) p
  let cleared (p : Pass) : Pass := (p.worklist.toList.drop len).foldl (fun p v => p.markVar v .unseen) p
  have hl : Alike S (lowered p) (lowered q) := List.foldl_rel h fun l _ p' q' h' => by
    simp only [h'.isOutside]
    split
    · exact h'
    · exact h'.lower l.var
  have hc : Alike S (cleared (lowered p)) (cleared (lowered q)) := by
    simp only [cleared, hl.worklist]
    exact List.foldl_rel hl fun v _ p' q' h' => h'.markVar v .unseen
  exact ⟨⟨hc.vars, hc.clauses, hc.size, hc.score⟩, congrArg (·.take len) hc.worklist⟩

/-- Both scans give the clause the same mark. -/
theorem scan (len : Nat) : ∀ (lits scanned : List Lit) (whole : Bool) {p q : Pass}, Alike S p q →
    (Pass.scan a len scanned whole q lits).1 = (Pass.scan a len scanned whole p lits).1 ∧
      Alike S (Pass.scan a len scanned whole p lits).2 (Pass.scan a len scanned whole q lits).2
  | [], _, _, _, _, h => ⟨rfl, h⟩
  | l :: lits, scanned, whole, p, q, h => by
    simp only [Pass.scan, h.isOutside]
    split
    · split
      · exact ⟨rfl, h.undo scanned len⟩
      · exact scan len lits (l :: scanned) false h
    · exact scan len lits (l :: scanned) whole (h.meet l.var)

theorem visitClause (h : Alike S p q) (v : Var) (c : ClauseId) :
    Alike S (p.visitClause adj a v c) (q.visitClause adj a v c) := by
  have hsat : q.satisfies a = p.satisfies a := funext fun l => by
    rw [Pass.satisfies, h.isOutside, Pass.satisfies]
  obtain ⟨hmark, hscan⟩ := h.scan a p.worklist.size (adj.lits c) [] true
  unfold Pass.visitClause
  simp only [h.clauseMark, hsat, h.worklist, hmark]
  split
  · exact h
  · split
    · exact h.markClause c .outside
    · split
      · exact hscan.markClause c _
      · exact (hscan.markClause c _).raise v

theorem visit (h : Alike S p q) (v : Var) : Alike S (p.visit adj a v) (q.visit adj a v) :=
  List.foldl_rel (List.foldl_rel h fun w _ _ _ h' => h'.follow v w) fun c _ _ _ h' => h'.visitClause adj a v c

theorem spread : ∀ (fuel position : Nat) {p q : Pass}, Alike S p q →
    Alike S (p.spread adj a fuel position) (q.spread adj a fuel position)
  | 0, _, _, _, h => h
  | fuel + 1, position, p, q, h => by
    simp only [Pass.spread, h.worklist]
    split
    · exact h
    · exact spread fuel (position + 1) (h.visit adj a _)

end Alike

namespace Agree

variable (adj : Adjacency) (a : Assignment)

/-- A search begins with a worklist of its own. -/
theorem search (h : Agree S p q) (seed : Var) : Alike S (p.search adj a seed) (q.search adj a seed) := by
  have hempty : Alike S { p with worklist := #[] } { q with worklist := #[] } :=
    ⟨⟨h.vars, h.clauses, h.size, h.score⟩, rfl⟩
  have hseed := hempty.reach seed
  simp only [Pass.search, hseed.vars]
  exact hseed.spread adj a _ 0

theorem explore (h : Agree S p q) (seed : Var) :
    (q.explore adj a seed).1 = (p.explore adj a seed).1 ∧
      Alike S (p.explore adj a seed).2 (q.explore adj a seed).2 := by
  have hs := h.search adj a seed
  simp only [Pass.explore, hs.worklist]
  split
  · exact ⟨rfl, hs.markVar seed .placed⟩
  · exact ⟨rfl, hs⟩

/-! ## Taking a component out -/

theorem placeVars : ∀ (vs : List Var) {p q : Pass}, Agree S p q →
    (q.placeVars vs).1 = (p.placeVars vs).1 ∧ Agree S (p.placeVars vs).2 (q.placeVars vs).2
  | [], _, _, h => ⟨rfl, h⟩
  | v :: vs, p, q, h => by
    simp only [Pass.placeVars, h.varMark]
    split
    · obtain ⟨hvars, h'⟩ := placeVars vs (h.markVar v .placed)
      exact ⟨congrArg (v :: ·) hvars, h'⟩
    · exact placeVars vs h

theorem placeClauses : ∀ (cs : List ClauseId) {p q : Pass}, Agree S p q →
    (q.placeClauses cs).1 = (p.placeClauses cs).1 ∧ (q.placeClauses cs).2.1 = (p.placeClauses cs).2.1 ∧
      Agree S (p.placeClauses cs).2.2 (q.placeClauses cs).2.2
  | [], _, _, h => ⟨rfl, rfl, h⟩
  | c :: cs, p, q, h => by
    obtain ⟨hclauses, hcut, h'⟩ := placeClauses cs (h.markClause c .placed)
    simp only [Pass.placeClauses, h.clauseMark]
    split
    · exact ⟨congrArg (c :: ·) hclauses, congrArg (c :: ·) hcut, h'⟩
    · exact ⟨congrArg (c :: ·) hclauses, hcut, h'⟩
    · exact placeClauses cs h

theorem takeComponent (h : Agree S p q) (super : Component) :
    (q.takeComponent super).1 = (p.takeComponent super).1 ∧
      (q.takeComponent super).2.1 = (p.takeComponent super).2.1 ∧
      Agree S (p.takeComponent super).2.2 (q.takeComponent super).2.2 := by
  obtain ⟨hvars, hv⟩ := h.placeVars super.vars
  obtain ⟨hclauses, hcut, hc⟩ := hv.placeClauses super.clauses
  simp only [Pass.takeComponent, hvars, hclauses, hcut]
  exact ⟨trivial, trivial, hc⟩

/-! ## Whole passes -/

/-- The same is found, in the same order, and the states agree again. -/
theorem splitFrom (super : Component) : ∀ (vs : List Var) {p q : Pass}, Agree S p q →
    (q.splitFrom adj a super vs).isolated = (p.splitFrom adj a super vs).isolated ∧
      (q.splitFrom adj a super vs).found = (p.splitFrom adj a super vs).found ∧
      Agree S (p.splitFrom adj a super vs).pass (q.splitFrom adj a super vs).pass
  | [], _, _, h => ⟨rfl, rfl, h⟩
  | v :: vs, p, q, h => by
    obtain ⟨hone, he⟩ := h.explore adj a v
    simp only [Pass.splitFrom, h.varMark]
    split
    · exact splitFrom super vs h
    · rcases hp : p.explore adj a v with ⟨_ | _, p₁⟩ <;> rcases hq : q.explore adj a v with ⟨_ | _, q₁⟩ <;>
        simp only [hp, hq, reduceCtorEq] at hone he
      · obtain ⟨hisolated, hfound, h'⟩ := splitFrom super vs he.toAgree
        exact ⟨congrArg (v :: ·) hisolated, hfound, h'⟩
      · obtain ⟨hcomponent, hview, ht⟩ := he.takeComponent super
        obtain ⟨hisolated, hfound, h'⟩ := splitFrom super vs ht
        refine ⟨hisolated, ?_, h'⟩
        simp only [hcomponent, hview, hfound, he.worklist]

/-- A variable that enters the pass has the score zero. -/
theorem enterVar (h : Agree S p q) (v : Var) :
    Agree (fun w => S w ∨ w = v ∧ a.isActive v = true) (Pass.enterVar a p v) (Pass.enterVar a q v) := by
  unfold Pass.enterVar
  split
  · have hm := (h.markVar v .unseen).setScore v fun _ => (rfl : 0 = 0)
    refine ⟨hm.vars, hm.clauses, hm.size, fun w hw => ?_⟩
    rcases hw with hw | ⟨rfl, -⟩
    · exact hm.score w hw
    · simp only [Pass.score, Pass.setScore, Pass.markVar, Table.get_set, h.size, true_and]
      split
      · rfl
      · rename_i hlt
        have hlt := Nat.le_of_not_lt hlt
        rw [Table.get_of_size_le _ hlt, Table.get_of_size_le _ (h.size ▸ hlt)]
  · rename_i hv
    exact ⟨h.vars, h.clauses, h.size, fun w hw => h.score w (hw.resolve_right fun h' => hv h'.2)⟩

theorem enterVars : ∀ (vs : List Var) {S : Var → Prop} {p q : Pass}, Agree S p q →
    Agree (fun w => S w ∨ w ∈ vs ∧ a.isActive w = true) (vs.foldl (Pass.enterVar a) p) (vs.foldl (Pass.enterVar a) q)
  | [], S, p, q, h => ⟨h.vars, h.clauses, h.size, fun w hw => h.score w (hw.resolve_right fun h' => by cases h'.1)⟩
  | v :: vs, S, p, q, h => by
    have h' := enterVars vs (h.enterVar a v)
    refine ⟨h'.vars, h'.clauses, h'.size, fun w hw => h'.score w ?_⟩
    rcases hw with hw | ⟨hw, hactive⟩
    · exact .inl (.inl hw)
    · rcases List.mem_cons.1 hw with rfl | hw
      · exact .inl (.inr ⟨rfl, hactive⟩)
      · exact .inr ⟨hw, hactive⟩

end Agree

/-- Passes over one component agree once they have begun, whatever came before. -/
theorem begin_agree (super : Component) (a : Assignment) (hv : q.vars.size = p.vars.size)
    (hc : q.clauses.size = p.clauses.size) (hs : q.scores.size = p.scores.size) :
    Agree (super.TakesPart a) (p.begin a super) (q.begin a super) := by
  let cleared (p : Pass) : Pass := { p with
    vars := .replicate p.vars.size .outside
    clauses := .replicate p.clauses.size .outside }
  have hcleared : Agree (fun _ => False) (cleared p) (cleared q) :=
    ⟨congrArg (Table.replicate · _) hv, congrArg (Table.replicate · _) hc, hs, fun _ h => h.elim⟩
  have hvars := hcleared.enterVars a super.vars
  have hall := List.foldl_rel hvars fun c (_ : c ∈ super.clauses) p' q' h' => h'.markClause c .unseen
  exact ⟨hall.vars, hall.clauses, hall.size, fun v hv => hall.score v (.inr hv)⟩

/-- What a pass finds does not depend on the state it starts from. -/
theorem split_agree (adj : Adjacency) (a : Assignment) (super : Component) (hv : q.vars.size = p.vars.size)
    (hc : q.clauses.size = p.clauses.size) (hs : q.scores.size = p.scores.size) :
    (q.split adj a super).isolated = (p.split adj a super).isolated ∧
      (q.split adj a super).found = (p.split adj a super).found ∧
      Agree (super.TakesPart a) (p.split adj a super).pass (q.split adj a super).pass :=
  (begin_agree super a hv hc hs).splitFrom adj a super super.vars

end Pass

end ModelCount
