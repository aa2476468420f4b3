/-
Models of clauses. A truth assignment of finitely many variables is given by the set of the variables
that are true. Clauses over disjoint sets of variables are satisfied independently of each other, so
the numbers of their models multiply.
-/
import Mathlib.Algebra.BigOperators.Group.List.Basic
import Mathlib.Data.Finset.Powerset
import Mathlib.Data.Finset.Prod
import ModelCount.Assignment

namespace ModelCount

/-- Some literal of the clause holds when the variables of `T` are the true ones. -/
def Satisfies (T : Finset Var) (clause : List Lit) : Prop := ∃ l ∈ clause, l.holds (decide (l.var ∈ T)) = true

instance (T : Finset Var) (clause : List Lit) : Decidable (Satisfies T clause) :=
  inferInstanceAs (Decidable (∃ l ∈ clause, l.holds (decide (l.var ∈ T)) = true))

/-- The truth assignments of the variables `V` that satisfy all clauses. -/
def models (V : Finset Var) (clauses : List (List Lit)) : Finset (Finset Var) :=
  V.powerset.filter fun T => ∀ clause ∈ clauses, Satisfies T clause

theorem mem_models {V T : Finset Var} {clauses : List (List Lit)} :
    T ∈ models V clauses ↔ T ⊆ V ∧ ∀ clause ∈ clauses, Satisfies T clause := by
  rw [models, Finset.mem_filter, Finset.mem_powerset]

/-- All variables of the clauses are among the given ones. -/
def Over (V : Finset Var) (clauses : List (List Lit)) : Prop := ∀ clause ∈ clauses, ∀ l ∈ clause, l.var ∈ V

theorem satisfies_congr {T U : Finset Var} {clause : List Lit} (h : ∀ l ∈ clause, l.var ∈ T ↔ l.var ∈ U) :
    Satisfies T clause ↔ Satisfies U clause := by
  unfold Satisfies
  refine exists_congr fun l => and_congr_right fun hl => ?_
  rw [decide_eq_decide.2 (h l hl)]

/-- The models depend on which clauses there are, not on their order or number. -/
theorem models_congr (V : Finset Var) {clauses clauses' : List (List Lit)}
    (h : ∀ clause, clause ∈ clauses ↔ clause ∈ clauses') : models V clauses = models V clauses' := by
  ext T
  simp only [mem_models, h]

theorem card_models_nil (V : Finset Var) : (models V []).card = 2 ^ V.card := by
  rw [models, Finset.filter_true_of_mem (by simp), Finset.card_powerset]

/-- Clauses over disjoint sets of variables have as many models together as the product tells. -/
theorem card_models_append {A B : Finset Var} (hdisj : Disjoint A B) {as bs : List (List Lit)} (ha : Over A as)
    (hb : Over B bs) : (models (A ∪ B) (as ++ bs)).card = (models A as).card * (models B bs).card := by
  have hA : ∀ T, ∀ clause ∈ as, Satisfies (T ∩ A) clause ↔ Satisfies T clause := fun T clause hc =>
    satisfies_congr fun l hl => by simp [ha clause hc l hl]
  have hB : ∀ T, ∀ clause ∈ bs, Satisfies (T ∩ B) clause ↔ Satisfies T clause := fun T clause hc =>
    satisfies_congr fun l hl => by simp [hb clause hc l hl]
  have hunionA : ∀ {T U : Finset Var}, T ⊆ A → U ⊆ B → (T ∪ U) ∩ A = T := fun {T U} hT hU => by
    rw [Finset.union_inter_distrib_right, Finset.inter_eq_left.2 hT,
      Finset.disjoint_iff_inter_eq_empty.1 (hdisj.symm.mono_left hU), Finset.union_empty]
  have hunionB : ∀ {T U : Finset Var}, T ⊆ A → U ⊆ B → (T ∪ U) ∩ B = U := fun {T U} hT hU => by
    rw [Finset.union_inter_distrib_right, Finset.inter_eq_left.2 hU,
      Finset.disjoint_iff_inter_eq_empty.1 (hdisj.mono_left hT), Finset.empty_union]
  rw [← Finset.card_product]
  refine Finset.card_nbij' (fun T => (T ∩ A, T ∩ B)) (fun TU => TU.1 ∪ TU.2) (fun T hT => ?_) (fun TU hTU => ?_)
    (fun T hT => ?_) (fun TU hTU => ?_)
  · obtain ⟨-, hall⟩ := mem_models.1 hT
    rw [List.forall_mem_append] at hall
    refine Finset.mem_product.2 ⟨mem_models.2 ⟨Finset.inter_subset_right, fun clause hc => ?_⟩,
      mem_models.2 ⟨Finset.inter_subset_right, fun clause hc => ?_⟩⟩
    · exact (hA T clause hc).2 (hall.1 clause hc)
    · exact (hB T clause hc).2 (hall.2 clause hc)
  · obtain ⟨hT, hU⟩ := Finset.mem_product.1 hTU
    obtain ⟨hTA, hTs⟩ := mem_models.1 hT
    obtain ⟨hUB, hUs⟩ := mem_models.1 hU
    refine mem_models.2 ⟨Finset.union_subset_union hTA hUB, List.forall_mem_append.2 ⟨fun clause hc => ?_,
      fun clause hc => ?_⟩⟩
    · rw [← hA _ clause hc, hunionA hTA hUB]
      exact hTs clause hc
    · rw [← hB _ clause hc, hunionB hTA hUB]
      exact hUs clause hc
  · obtain ⟨hsub, -⟩ := mem_models.1 hT
    show T ∩ A ∪ T ∩ B = T
    rw [← Finset.inter_union_distrib_left, Finset.inter_eq_left.2 hsub]
  · obtain ⟨hT, hU⟩ := Finset.mem_product.1 hTU
    exact Prod.ext (hunionA (mem_models.1 hT).1 (mem_models.1 hU).1) (hunionB (mem_models.1 hT).1 (mem_models.1 hU).1)

/-! ## Many parts -/

section

variable {α : Type} (vars : α → Finset Var) (clauses : α → List (List Lit))

/-- The variables of all parts together. -/
def allVars (parts : List α) : Finset Var := parts.foldr (fun p V => vars p ∪ V) ∅

theorem mem_allVars {parts : List α} {v : Var} : v ∈ allVars vars parts ↔ ∃ p ∈ parts, v ∈ vars p := by
  induction parts with
  | nil => simp [allVars]
  | cons p parts ih =>
    have hcons : allVars vars (p :: parts) = vars p ∪ allVars vars parts := rfl
    rw [hcons, Finset.mem_union, ih]
    simp only [List.mem_cons, exists_eq_or_imp]

/-- The numbers of models of independent parts multiply. -/
theorem card_models_parts : ∀ {parts : List α}, parts.Pairwise (fun p q => Disjoint (vars p) (vars q)) →
    (∀ p ∈ parts, Over (vars p) (clauses p)) →
    (models (allVars vars parts) (parts.flatMap clauses)).card =
      (parts.map fun p => (models (vars p) (clauses p)).card).prod
  | [], _, _ => by simp [allVars, card_models_nil]
  | p :: parts, hdisj, hover => by
    rw [List.pairwise_cons] at hdisj
    rw [List.forall_mem_cons] at hover
    have hd : Disjoint (vars p) (allVars vars parts) := Finset.disjoint_left.2 fun v hv hv' => by
      obtain ⟨q, hq, hvq⟩ := (mem_allVars vars).1 hv'
      exact Finset.disjoint_left.1 (hdisj.1 q hq) hv hvq
    have ho : Over (allVars vars parts) (parts.flatMap clauses) := fun clause hc l hl => by
      obtain ⟨q, hq, hcq⟩ := List.mem_flatMap.1 hc
      exact (mem_allVars vars).2 ⟨q, hq, hover.2 q hq clause hcq l hl⟩
    have hcons : allVars vars (p :: parts) = vars p ∪ allVars vars parts := rfl
    rw [hcons, List.flatMap_cons, card_models_append hd hover.1 ho, card_models_parts hdisj.2 hover.2, List.map_cons,
      List.prod_cons]

end

/-! ## Partial assignments -/

/-- The truth assignment gives a variable of `V` the value that the partial assignment gives it. -/
def Agrees (a : Assignment) (V T : Finset Var) : Prop := ∀ v ∈ V, ∀ b, a.varValue v = some b → decide (v ∈ T) = b

instance (a : Assignment) (V T : Finset Var) : Decidable (Agrees a V T) :=
  inferInstanceAs (Decidable (∀ v ∈ V, ∀ b, a.varValue v = some b → decide (v ∈ T) = b))

/-- What a partial assignment leaves of clauses: those without a true literal, and of these the
literals that are unassigned. -/
def reduct (a : Assignment) (clauses : List (List Lit)) : List (List Lit) :=
  (clauses.filter fun clause => !clause.any a.isTrue).map fun clause => clause.filter fun l => a.isActive l.var

theorem mem_reduct {a : Assignment} {clauses : List (List Lit)} {clause : List Lit} :
    clause ∈ reduct a clauses ↔
      ∃ c ∈ clauses, (∀ l ∈ c, a.isTrue l = false) ∧ (c.filter fun l => a.isActive l.var) = clause := by
  simp only [reduct, List.mem_map, List.mem_filter, Bool.not_eq_true', List.any_eq_false, Bool.not_eq_true, and_assoc]

/-- A literal that holds in an assignment that agrees is true or unassigned. -/
theorem Agrees.isActive_of_holds {a : Assignment} {V T : Finset Var} (h : Agrees a V T) {l : Lit} (hl : l.var ∈ V)
    (hholds : l.holds (decide (l.var ∈ T)) = true) (hnot : a.isTrue l = false) : a.isActive l.var = true := by
  rw [Assignment.isActive_iff]
  rcases hv : a.varValue l.var with _ | b
  · rfl
  · rw [Lit.holds_iff, h l.var hl b hv] at hholds
    rw [hholds, ← Assignment.isTrue_iff, hnot] at hv
    cases hv

/-- A truth assignment of the unassigned variables, completed by the variables that are true. -/
def completed (a : Assignment) (V T : Finset Var) : Finset Var := T ∪ V.filter fun v => a.varValue v = some true

theorem mem_completed {a : Assignment} {V T : Finset Var} {v : Var} :
    v ∈ completed a V T ↔ v ∈ T ∨ v ∈ V ∧ a.varValue v = some true := by
  rw [completed, Finset.mem_union, Finset.mem_filter]

section

variable {a : Assignment} {V T : Finset Var} {clauses : List (List Lit)}

theorem agrees_completed (hT : T ⊆ V.filter fun v => a.isActive v = true) : Agrees a V (completed a V T) := by
  intro v hv b hb
  have hnot : v ∉ T := fun h => by
    have := (Finset.mem_filter.1 (hT h)).2
    rw [Assignment.isActive_iff, hb] at this
    cases this
  cases b <;> simp [mem_completed, hnot, hv, hb]

/-- A model that agrees, on the unassigned variables. -/
theorem Agrees.filter_mem_models (h : Agrees a V T) (hover : Over V clauses) (hT : T ∈ models V clauses) :
    (T.filter fun v => a.isActive v = true) ∈ models (V.filter fun v => a.isActive v = true) (reduct a clauses) := by
  obtain ⟨hsub, hsat⟩ := mem_models.1 hT
  refine mem_models.2 ⟨Finset.filter_subset_filter _ hsub, fun clause hclause => ?_⟩
  obtain ⟨c, hc, hnot, rfl⟩ := mem_reduct.1 hclause
  obtain ⟨l, hl, hholds⟩ := hsat c hc
  have hactive := h.isActive_of_holds (hover c hc l hl) hholds (hnot l hl)
  exact ⟨l, List.mem_filter.2 ⟨hl, hactive⟩, by simpa [hactive] using hholds⟩

/-- A model of what the partial assignment leaves, completed. -/
theorem completed_mem_models (hover : Over V clauses)
    (hT : T ∈ models (V.filter fun v => a.isActive v = true) (reduct a clauses)) :
    completed a V T ∈ models V clauses := by
  obtain ⟨hsub, hsat⟩ := mem_models.1 hT
  refine mem_models.2 ⟨Finset.union_subset (hsub.trans (Finset.filter_subset ..)) (Finset.filter_subset ..),
    fun clause hc => ?_⟩
  by_cases hnot : ∀ l ∈ clause, a.isTrue l = false
  · -- The clause is left, and a literal of it that holds is unassigned.
    obtain ⟨l, hl, hholds⟩ := hsat _ (mem_reduct.2 ⟨clause, hc, hnot, rfl⟩)
    obtain ⟨hl, hactive⟩ := List.mem_filter.1 hl
    refine ⟨l, hl, ?_⟩
    simpa [mem_completed, Assignment.isActive_iff.1 hactive] using hholds
  · push Not at hnot
    obtain ⟨l, hl, ht⟩ := hnot
    rw [ne_eq, Bool.not_eq_false, Assignment.isTrue_iff] at ht
    exact ⟨l, hl, by rw [agrees_completed hsub l.var (hover clause hc l hl) _ ht, Lit.holds_iff]⟩

theorem Agrees.completed_filter (h : Agrees a V T) (hT : T ⊆ V) :
    completed a V (T.filter fun v => a.isActive v = true) = T := by
  ext v
  rw [mem_completed, Finset.mem_filter]
  constructor
  · rintro (⟨hv, -⟩ | ⟨hv, ht⟩)
    · exact hv
    · simpa using h v hv true ht
  · intro hv
    rcases hval : a.varValue v with _ | b
    · exact .inl ⟨hv, Assignment.isActive_iff.2 hval⟩
    · have := h v (hT hv) b hval
      rw [decide_eq_true hv] at this
      exact .inr ⟨hT hv, by rw [this]⟩

theorem filter_completed (hT : T ⊆ V.filter fun v => a.isActive v = true) :
    ((completed a V T).filter fun v => a.isActive v = true) = T := by
  ext v
  rw [Finset.mem_filter, mem_completed]
  constructor
  · rintro ⟨hv | ⟨-, ht⟩, hactive⟩
    · exact hv
    · rw [Assignment.isActive_iff, ht] at hactive
      cases hactive
  · exact fun hv => ⟨.inl hv, (Finset.mem_filter.1 (hT hv)).2⟩

/-- The models that agree with a partial assignment are as many as those of what it leaves. -/
theorem card_filter_agrees (hover : Over V clauses) (a : Assignment) :
    ((models V clauses).filter fun T => Agrees a V T).card =
      (models (V.filter fun v => a.isActive v = true) (reduct a clauses)).card := by
  refine Finset.card_nbij' (fun T => T.filter fun v => a.isActive v = true) (completed a V) (fun T hT => ?_)
    (fun T hT => ?_) (fun T hT => ?_) (fun T hT => ?_)
  · obtain ⟨hT, hagree⟩ := Finset.mem_filter.1 hT
    exact hagree.filter_mem_models hover hT
  · exact Finset.mem_filter.2 ⟨completed_mem_models hover hT, agrees_completed (mem_models.1 hT).1⟩
  · obtain ⟨hT, hagree⟩ := Finset.mem_filter.1 hT
    exact hagree.completed_filter (mem_models.1 hT).1
  · exact filter_completed (mem_models.1 hT).1

end

end ModelCount
