/-
Decompositions multiply. Under any assignment a component has a residual formula over its unassigned
variables. When every open clause of the super-component mentions two of its unassigned variables, the
residual formula falls apart into those of the components that a pass finds, and the isolated variables
are free; so the residual count is the product of what a decomposition multiplies into its level and of
the residual counts of what it leaves on the stack.
-/
import ModelCount.Proofs.Counting.Parts
import ModelCount.Proofs.Engine.Live
import ModelCount.Proofs.Level

namespace ModelCount

/-! ## Residual formulas under an assignment -/

namespace Formula

variable (f : Formula) (a : Assignment) (c : Component)

/-- What an assignment leaves of the formula on a component: the binary clauses over its unassigned
variables, and its long clauses without a true literal, restricted to these variables. -/
def residualUnder : List (List Lit) :=
  (f.binaries.filter fun b => c.TakesPart a b.1.var ∧ c.TakesPart a b.2.var).map (fun b => [b.1, b.2]) ++
    (c.clauses.filter fun k => ¬ f.Satisfied a k).map fun k => (f.lits k).filter fun l => c.TakesPart a l.var

/-- The number of models that a component has left under an assignment. -/
def residualCountUnder : Nat := (models (c.openVars a) (f.residualUnder a c)).card

/-- Every clause of the component without a true literal mentions two of its unassigned variables. -/
def TwoOpen : Prop :=
  ∀ k ∈ c.clauses, ¬ f.Satisfied a k →
    ∃ v w, v ≠ w ∧ c.TakesPart a v ∧ c.TakesPart a w ∧ f.Mentions k v ∧ f.Mentions k w

variable {f a c}

theorem mem_residualUnder {clause : List Lit} :
    clause ∈ f.residualUnder a c ↔
      (∃ b ∈ f.binaries, c.TakesPart a b.1.var ∧ c.TakesPart a b.2.var ∧ [b.1, b.2] = clause) ∨
        ∃ k ∈ c.clauses, ¬ f.Satisfied a k ∧ ((f.lits k).filter fun l => c.TakesPart a l.var) = clause := by
  simp only [residualUnder, List.mem_append, List.mem_map, List.mem_filter, decide_eq_true_eq, and_assoc]

/-- A residual formula is over the unassigned variables of its component. -/
theorem over_residualUnder : Over (c.openVars a) (f.residualUnder a c) := by
  intro clause hclause l hl
  rw [Component.mem_openVars]
  rcases mem_residualUnder.1 hclause with ⟨b, -, h1, h2, rfl⟩ | ⟨k, -, -, rfl⟩
  · simp only [List.mem_cons, List.not_mem_nil, or_false] at hl
    rcases hl with rfl | rfl
    · exact h1
    · exact h2
  · simpa using (List.mem_filter.1 hl).2

/-- The two variables are looked for among those of the clause. -/
theorem twoOpen_iff : f.TwoOpen a c ↔ ∀ k ∈ c.clauses, ¬ f.Satisfied a k →
    ∃ l ∈ f.lits k, ∃ m ∈ f.lits k, l.var ≠ m.var ∧ c.TakesPart a l.var ∧ c.TakesPart a m.var := by
  refine forall_congr' fun k => forall_congr' fun _ => forall_congr' fun _ => ?_
  constructor
  · rintro ⟨v, w, hne, hv, hw, ⟨l, hl, rfl⟩, ⟨m, hm, rfl⟩⟩
    exact ⟨l, hl, m, hm, hne, hv, hw⟩
  · rintro ⟨l, hl, m, hm, hne, hv, hw⟩
    exact ⟨l.var, m.var, hne, hv, hw, ⟨l, hl, rfl⟩, ⟨m, hm, rfl⟩⟩

instance : Decidable (f.TwoOpen a c) := decidable_of_iff _ twoOpen_iff.symm

theorem TwoOpen.unitFree (h : f.TwoOpen a c) : f.UnitFree a c := by
  intro k hk hsat v _ _
  obtain ⟨u, w, hne, hu, hw, hku, hkw⟩ := h k hk hsat
  by_cases huv : u = v
  · exact ⟨w, huv ▸ hne.symm, hw, hkw⟩
  · exact ⟨u, huv, hu, hku⟩

end Formula

/-! ## What a pass leaves -/

section

variable {f : Formula} {a : Assignment} {super : Component} {fd : Found}

theorem Found.Splits.takesPart_iff (hs : fd.Splits f a super) {v : Var} :
    fd.component.TakesPart a v ↔ v ∈ fd.component.vars := by
  constructor
  · exact fun h => h.1
  · exact fun h => ⟨h, (hs.takesPart v h).2⟩

theorem Found.Splits.openVars_eq (hs : fd.Splits f a super) :
    fd.component.openVars a = fd.component.vars.toFinset := by
  ext v
  rw [Component.mem_openVars, hs.takesPart_iff, List.mem_toFinset]

/-- The unassigned variables of a clause of the component are all in the component. -/
theorem Found.Splits.filter_takesPart (hs : fd.Splits f a super) {k : ClauseId}
    (hk : fd.component.Touches f a super k) :
    ((f.lits k).filter fun l => super.TakesPart a l.var) =
      (f.lits k).filter fun l => fd.component.TakesPart a l.var := by
  obtain ⟨hmem, hsat, v, hv, hkv⟩ := hk
  refine List.filter_congr fun l hl => decide_eq_decide.2 ?_
  rw [hs.takesPart_iff]
  constructor
  · intro hl'
    by_cases hvl : v = l.var
    · exact hvl ▸ hv
    · have hadj := Formula.linkGraph_of_mentions (hs.takesPart v hv) hl' hvl hmem hsat hkv ⟨l, hl, rfl⟩
      exact (hs.mem_iff v hv l.var).2 hadj.reachable
  · exact hs.takesPart l.var

namespace Split.Decomposes

variable {s : Split}

/-- A variable with a link is in one of the components, together with what it is linked to. -/
theorem exists_found_of_adj (hd : s.Decomposes f a super) {v w : Var} (hadj : (f.linkGraph a super).Adj v w) :
    ∃ fd ∈ s.found, v ∈ fd.component.vars ∧ w ∈ fd.component.vars := by
  have hmem : v ∈ s.vars := hd.mem_openVars.1 (Component.mem_openVars.2 hadj.2.1)
  rcases Split.mem_vars.1 hmem with hiso | ⟨fd, hfd, hv⟩
  · exact (((hd.mem_isolated v).1 hiso).2 w hadj).elim
  · exact ⟨fd, hfd, hv, ((hd.found fd hfd).mem_iff v hv w).2 hadj.reachable⟩

/-- The residual formula of the super-component is made of those of the components. -/
theorem mem_residualUnder (hd : s.Decomposes f a super) (htwo : f.TwoOpen a super) (clause : List Lit) :
    clause ∈ f.residualUnder a super ↔ clause ∈ s.found.flatMap fun fd => f.residualUnder a fd.component := by
  rw [List.mem_flatMap]
  constructor
  · intro hclause
    rcases Formula.mem_residualUnder.1 hclause with ⟨b, hb, h1, h2, rfl⟩ | ⟨k, hk, hsat, rfl⟩
    · have hadj := Formula.linkGraph_of_shares h1 h2 (Formula.shares_of_mem (.inl hb))
      obtain ⟨fd, hfd, hv, hw⟩ := hd.exists_found_of_adj hadj
      have hs := hd.found fd hfd
      exact ⟨fd, hfd, Formula.mem_residualUnder.2
        (.inl ⟨b, hb, hs.takesPart_iff.2 hv, hs.takesPart_iff.2 hw, rfl⟩)⟩
    · obtain ⟨v, w, hne, hv, hw, hkv, hkw⟩ := htwo k hk hsat
      obtain ⟨fd, hfd, hvf, -⟩ := hd.exists_found_of_adj (Formula.linkGraph_of_mentions hv hw hne hk hsat hkv hkw)
      have hs := hd.found fd hfd
      have htouches : fd.component.Touches f a super k := ⟨hk, hsat, v, hvf, hkv⟩
      exact ⟨fd, hfd, Formula.mem_residualUnder.2
        (.inr ⟨k, hs.mem_of_touches htouches, hsat, (hs.filter_takesPart htouches).symm⟩)⟩
  · rintro ⟨fd, hfd, hclause⟩
    have hs := hd.found fd hfd
    rcases Formula.mem_residualUnder.1 hclause with ⟨b, hb, h1, h2, rfl⟩ | ⟨k, hk, hsat, rfl⟩
    · exact Formula.mem_residualUnder.2 (.inl ⟨b, hb, hs.takesPart _ h1.1, hs.takesPart _ h2.1, rfl⟩)
    · have htouches := (hs.mem_iff_touches htwo.unitFree k).1 hk
      exact Formula.mem_residualUnder.2 (.inr ⟨k, htouches.1, hsat, hs.filter_takesPart htouches⟩)

/-- The residual count is two for every isolated variable times the residual counts of the components. -/
theorem residualCountUnder_eq (hd : s.Decomposes f a super) (hfit : super.Within f) (htwo : f.TwoOpen a super) :
    f.residualCountUnder a super =
      2 ^ s.isolated.length * (s.found.map fun fd => f.residualCountUnder a fd.component).prod := by
  have hover : ∀ fd ∈ s.found, Over fd.component.vars.toFinset (f.residualUnder a fd.component) := fun fd hfd => by
    rw [← (hd.found fd hfd).openVars_eq]
    exact Formula.over_residualUnder
  rw [Formula.residualCountUnder, hd.card_models_found hfit _ (hd.mem_residualUnder htwo) hover]
  congr 2
  refine List.map_congr_left fun fd hfd => ?_
  rw [Formula.residualCountUnder, (hd.found fd hfd).openVars_eq]

end Split.Decomposes

end

/-! ## What a decomposition multiplies -/

namespace Engine

variable {e : Engine} {f : Formula}

/-- Decomposition is multiplicative. While caching is off, on a level whose branch counts nothing yet, the
residual count of the super-component is the count of the branch, or one if nothing was multiplied in,
times the residual counts of the components that are pushed. -/
theorem decompose_multiplicative (he : e.Loaded f) (hoff : e.cache.caching = false) {level : Level} {super : Component}
    (hsuper : e.superComponent level = .ok super) (hfit : super.Within f) (htwo : f.TwoOpen e.assignment super)
    (hlevel : level.active = {}) :
    ∃ e' level' block, e.decompose level = .ok (e', level') ∧ e'.stack.items = e.stack.items ++ block ∧
      f.residualCountUnder e.assignment super =
        (if level'.active = {} then 1 else level'.active.count) *
          (block.map (f.residualCountUnder e.assignment)).prod := by
  have hd := he.passOver_decomposes hfit
  refine ⟨_, _, _, decompose_of_caching_off he hoff hsuper hfit, rfl, ?_⟩
  have hsane : level.active.Sane := hlevel ▸ Branch.sane_default
  obtain ⟨-, hsane', hvalue⟩ := Level.timesAll_spec (fun _ : Var => 2) (e.passOver super).isolated level hsane
  have hblock := (e.order.perm ((e.passOver super).found.map Found.component)).map (f.residualCountUnder e.assignment)
  rw [Level.active_setEnd, ← Branch.value_eq hsane', hvalue, hlevel, hblock.prod_eq, List.map_map,
    hd.residualCountUnder_eq hfit htwo, List.map_const', List.prod_replicate]
  show _ = 1 * _ * _
  rw [Nat.one_mul]
  rfl

/-- Once variable 3 is false, both long clauses are left with two variables each. -/
theorem decompose_multiplicative_twoParts :
    ∃ (e e' : Engine) (level' : Level) (block : List Component), e.Loaded (.ofCnf .twoParts) ∧
      e.cache.caching = false ∧ e.superComponent (.new 0 1) = .ok (root (.ofCnf .twoParts)) ∧
      (Formula.ofCnf .twoParts).TwoOpen e.assignment (root (.ofCnf .twoParts)) ∧
      e.decompose (.new 0 1) = .ok (e', level') ∧ e'.stack.items = e.stack.items ++ block ∧
      (Formula.ofCnf .twoParts).residualCountUnder e.assignment (root (.ofCnf .twoParts)) = 24 ∧
      24 = (if level'.active = {} then 1 else level'.active.count) *
        (block.map ((Formula.ofCnf .twoParts).residualCountUnder e.assignment)).prod := by
  let a : Assignment := (Assignment.empty 7).set ⟨⟨3, by decide⟩, false⟩
  have hcalls : (do
      let e₁ ← (Engine.new.configure { caching := some false }).load (.ofCnf .twoParts)
      let e₂ ← e₁.assign ⟨⟨3, by decide⟩, false⟩
      return (e₂.cache.caching, ← e₂.superComponent (.new 0 1), e₂.assignment)) =
        (.ok (false, root (.ofCnf .twoParts), a) : Except EngineError _) := by decide +kernel
  simp only [bind_eq_ok] at hcalls
  obtain ⟨e₁, hload, e₂, h₂, super, hsuper, h⟩ := hcalls
  injection h with h
  simp only [Prod.mk.injEq] at h
  obtain ⟨hoff, rfl, ha⟩ := h
  obtain rfl := assign_eq_ok h₂
  have hloaded := (load_eq_ok hload).1.setAssignment (a := e₁.assignment.set ⟨⟨3, by decide⟩, false⟩)
    (Assignment.varCount_set ..)
  have htwo : (Formula.ofCnf .twoParts).TwoOpen (e₁.assignment.set ⟨⟨3, by decide⟩, false⟩)
      (root (.ofCnf .twoParts)) := by
    rw [show e₁.assignment.set _ = a from ha]
    decide
  have hroot : (Formula.ofCnf .twoParts).residualCountUnder a (root (.ofCnf .twoParts)) = 24 := by decide +kernel
  rw [← show e₁.assignment.set _ = a from ha] at hroot
  obtain ⟨e', level', block, hok, hstack, hcount⟩ :=
    decompose_multiplicative hloaded hoff hsuper (within_root _) htwo rfl
  exact ⟨_, e', level', block, hloaded, hoff, hsuper, htwo, hok, hstack, hroot, hroot.symm.trans hcount⟩

end Engine

end ModelCount
