/-
The graph a pass walks over. Its vertices are the variables of the super-component that take part;
two of them are linked when a binary clause holds both, or a long clause of the super-component
without a true literal does. A component of the pass is to be a connected component of this graph.
-/
import Mathlib.Combinatorics.SimpleGraph.Connectivity.Connected
import ModelCount.Proofs.Adjacency
import ModelCount.Proofs.Pass.Scan

namespace ModelCount

/-! ## Components of a formula -/

/-- Variables and clauses of the formula, none of them twice. -/
structure Component.Within (c : Component) (f : Formula) : Prop where
  var_id_le : ∀ v ∈ c.vars, v.id ≤ f.varCount
  clause_mem : ∀ k ∈ c.clauses, k ∈ f.clauseIds
  nodup_vars : c.vars.Nodup
  nodup_clauses : c.clauses.Nodup

theorem Component.Within.of_sublist {c d : Component} {f : Formula} (h : c.Within f) (hv : d.vars.Sublist c.vars)
    (hk : d.clauses.Sublist c.clauses) : d.Within f :=
  ⟨fun v hvd => h.var_id_le v (hv.subset hvd), fun k hkd => h.clause_mem k (hk.subset hkd), hv.nodup h.nodup_vars,
    hk.nodup h.nodup_clauses⟩

/-- A variable of the super-component that the assignment leaves open. -/
def Component.TakesPart (super : Component) (a : Assignment) (v : Var) : Prop :=
  v ∈ super.vars ∧ a.isActive v = true

instance (super : Component) (a : Assignment) (v : Var) : Decidable (super.TakesPart a v) :=
  inferInstanceAs (Decidable (v ∈ super.vars ∧ a.isActive v = true))

/-- A long clause has a true literal. -/
def Formula.Satisfied (f : Formula) (a : Assignment) (c : ClauseId) : Prop := ∃ l ∈ f.lits c, a.isTrue l = true

instance (f : Formula) (a : Assignment) (c : ClauseId) : Decidable (f.Satisfied a c) :=
  inferInstanceAs (Decidable (∃ l ∈ f.lits c, a.isTrue l = true))

/-- All variables of a long clause take part in a pass over the component. -/
def Formula.Whole (f : Formula) (a : Assignment) (super : Component) (c : ClauseId) : Prop :=
  ∀ l ∈ f.lits c, l.var ∈ super.vars ∧ a.isActive l.var = true

instance (f : Formula) (a : Assignment) (super : Component) (c : ClauseId) : Decidable (f.Whole a super c) :=
  inferInstanceAs (Decidable (∀ l ∈ f.lits c, l.var ∈ super.vars ∧ a.isActive l.var = true))

namespace Formula

variable (f : Formula) (a : Assignment) (super : Component)

/-- The links a pass over the super-component follows. -/
def linkGraph : SimpleGraph Var where
  Adj v w := v ≠ w ∧ super.TakesPart a v ∧ super.TakesPart a w ∧
    (f.Shares v w ∨ ∃ c ∈ super.clauses, ¬ f.Satisfied a c ∧ f.Mentions c v ∧ f.Mentions c w)
  symm := by
    constructor
    rintro v w ⟨hne, hv, hw, h | ⟨c, hc, hs, hcv, hcw⟩⟩
    · exact ⟨hne.symm, hw, hv, .inl h.symm⟩
    · exact ⟨hne.symm, hw, hv, .inr ⟨c, hc, hs, hcw, hcv⟩⟩
  loopless := ⟨fun v h => h.1 rfl⟩

variable {f a super}

theorem linkGraph_of_shares {v w : Var} (hv : super.TakesPart a v) (hw : super.TakesPart a w)
    (h : f.Shares v w) : (f.linkGraph a super).Adj v w := ⟨h.ne, hv, hw, .inl h⟩

theorem linkGraph_of_mentions {v w : Var} {c : ClauseId} (hv : super.TakesPart a v) (hw : super.TakesPart a w)
    (hne : v ≠ w) (hc : c ∈ super.clauses) (hs : ¬ f.Satisfied a c) (hcv : f.Mentions c v) (hcw : f.Mentions c w) :
    (f.linkGraph a super).Adj v w := ⟨hne, hv, hw, .inr ⟨c, hc, hs, hcv, hcw⟩⟩

/-- What is closed under links holds whatever can be reached from it. -/
theorem reachable_closed {G : SimpleGraph Var} {P : Var → Prop} (hP : ∀ v w, P v → G.Adj v w → P w) {v w : Var}
    (hv : P v) (h : G.Reachable v w) : P w := by
  rw [SimpleGraph.reachable_iff_reflTransGen] at h
  induction h with
  | refl => exact hv
  | tail _ hadj ih => exact hP _ _ ih hadj

/-- A true literal is one of a variable that takes no part. -/
theorem not_takesPart_of_isTrue (super : Component) {l : Lit} (h : a.isTrue l = true) : ¬ super.TakesPart a l.var := by
  rintro ⟨-, hactive⟩
  simp [Assignment.isTrue_of_isActive hactive] at h

theorem not_satisfied_of_whole {c : ClauseId} (h : f.Whole a super c) : ¬ f.Satisfied a c := by
  rintro ⟨l, hl, ht⟩
  exact not_takesPart_of_isTrue super ht (h l hl)

end Formula

/-! ## Marks -/

/-- The tables of a pass are of the sizes of the formula. -/
structure Pass.Fits (p : Pass) (f : Formula) : Prop where
  vars : p.vars.size = f.varCount
  clauses : p.clauses.size = f.longs.length
  scores : p.scores.size = f.varCount

/-- The mark that a search gives a clause it comes to. -/
def Formula.metMark (f : Formula) (a : Assignment) (super : Component) (c : ClauseId) : ClauseMark :=
  if f.Satisfied a c then .outside else if f.Whole a super c then .seenWhole else .seen

namespace Formula

variable {f : Formula} {a : Assignment} {super : Component} {c : ClauseId}

theorem metMark_ne_unseen : f.metMark a super c ≠ .unseen := by
  unfold metMark; split
  · simp
  · split <;> simp

theorem metMark_of_satisfied (super : Component) (h : f.Satisfied a c) : f.metMark a super c = .outside := if_pos h

theorem metMark_of_not_satisfied (super : Component) (h : ¬ f.Satisfied a c) :
    f.metMark a super c = if f.Whole a super c then .seenWhole else .seen := if_neg h

end Formula

/-! ## Isolated variables -/

/-- A variable of the super-component that takes part and has no links. -/
def Formula.Isolated (f : Formula) (a : Assignment) (super : Component) (x : Var) : Prop :=
  super.TakesPart a x ∧ ∀ w, ¬ (f.linkGraph a super).Adj x w

theorem Formula.eq_of_reachable_isolated {f : Formula} {a : Assignment} {super : Component} {x w : Var}
    (hx : f.Isolated a super x) (h : (f.linkGraph a super).Reachable x w) : w = x :=
  Formula.reachable_closed (P := (· = x)) (fun _ u hv hadj => (hx.2 u (hv ▸ hadj)).elim) rfl h

/-- A clause without a true literal that mentions an isolated variable has a variable that takes no part. -/
theorem Formula.not_whole_of_isolated {f : Formula} {a : Assignment} {super : Component} {x : Var} {c : ClauseId}
    (hx : f.Isolated a super x) (hc : c ∈ super.clauses) (hsat : ¬ f.Satisfied a c) (hcx : f.Mentions c x) :
    ¬ f.Whole a super c := by
  intro hw
  obtain ⟨v, w, hne, ⟨l, hl, rfl⟩, ⟨m, hm, rfl⟩⟩ := Formula.exists_mentions_ne hcx.mem_clauseIds
  by_cases h : x = l.var
  · exact hx.2 m.var (Formula.linkGraph_of_mentions hx.1 (hw m hm) (h ▸ hne) hc hsat hcx ⟨m, hm, rfl⟩)
  · exact hx.2 l.var (Formula.linkGraph_of_mentions hx.1 (hw l hl) h hc hsat hcx ⟨l, hl, rfl⟩)

/-- No clause of the super-component without a true literal has just one variable that takes part. -/
def Formula.UnitFree (f : Formula) (a : Assignment) (super : Component) : Prop :=
  ∀ k ∈ super.clauses, ¬ f.Satisfied a k → ∀ v, super.TakesPart a v → f.Mentions k v →
    ∃ w, w ≠ v ∧ super.TakesPart a w ∧ f.Mentions k w

theorem Formula.UnitFree.not_isolated {f : Formula} {a : Assignment} {super : Component} (h : f.UnitFree a super)
    {k : ClauseId} (hk : k ∈ super.clauses) (hsat : ¬ f.Satisfied a k) {x : Var} (hkx : f.Mentions k x) :
    ¬ f.Isolated a super x := by
  intro hx
  obtain ⟨w, hne, hw, hkw⟩ := h k hk hsat x hx.1 hkx
  exact hx.2 w (Formula.linkGraph_of_mentions hx.1 hw hne.symm hk hsat hkx hkw)

end ModelCount
