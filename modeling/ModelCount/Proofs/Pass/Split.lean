/-
What a whole pass finds. Its searches take the isolated variables and the connected components of the
link graph out of the super-component, one after the other and each once.
-/
import ModelCount.Proofs.Pass.Found

namespace ModelCount

/-! ## The whole pass -/

/-- The variables that a pass dealt with, isolated ones first. -/
def Split.vars (s : Split) : List Var := s.isolated ++ s.found.flatMap fun fd => fd.component.vars

/-- What the searches from the variables `vs` find, when they start at `p`. -/
structure Split.Explores (s : Split) (f : Formula) (a : Assignment) (super : Component) (p : Pass)
    (vs : List Var) : Prop where
  fits : s.pass.Fits f
  isolated : ∀ v ∈ s.isolated, f.Isolated a super v
  found : ∀ fd ∈ s.found, fd.Splits f a super
  nodup : s.vars.Nodup
  unseen : ∀ v ∈ s.vars, p.varMark v = .unseen
  complete : ∀ v ∈ vs, p.varMark v = .unseen → v ∈ s.vars
  clauses_disjoint : s.found.Pairwise fun fd fd' => fd.component.clauses.Disjoint fd'.component.clauses
  unplaced : ∀ fd ∈ s.found, ∀ k ∈ fd.component.clauses, p.clauseMark k ≠ .placed

namespace Split

variable {f : Formula} {a : Assignment} {super : Component} {p q : Pass} {v : Var} {vs : List Var} {s : Split}

theorem mem_vars : v ∈ s.vars ↔ v ∈ s.isolated ∨ ∃ fd ∈ s.found, v ∈ fd.component.vars := by
  simp [vars]

/-- One more isolated variable in front of what the later searches find. -/
theorem Explores.cons_isolated (h : s.Explores f a super q vs) (hiso : f.Isolated a super v)
    (hv : p.varMark v = .unseen) (hq : ∀ w, q.varMark w = if w = v then .placed else p.varMark w)
    (hk : ∀ k, p.clauseMark k = .placed → q.clauseMark k = .placed) :
    Explores { s with isolated := v :: s.isolated } f a super p (v :: vs) := by
  have hq' : ∀ w, q.varMark w = .unseen → w ≠ v ∧ p.varMark w = .unseen := fun w hw => by
    rw [hq] at hw
    split at hw
    · cases hw
    · exact ⟨‹_›, hw⟩
  refine ⟨h.fits, List.forall_mem_cons.2 ⟨hiso, h.isolated⟩, h.found, ?_, ?_, fun w hw hu => ?_, h.clauses_disjoint,
    fun fd hfd k hkf => mt (hk k) (h.unplaced fd hfd k hkf)⟩
  · exact List.nodup_cons.2 ⟨fun hmem => (hq' v (h.unseen v hmem)).1 rfl, h.nodup⟩
  · exact List.forall_mem_cons.2 ⟨hv, fun w hw => (hq' w (h.unseen w hw)).2⟩
  · by_cases hwv : w = v
    · subst hwv; exact List.mem_cons_self ..
    · refine List.mem_cons_of_mem _ (h.complete w ((List.mem_cons.1 hw).resolve_left hwv) ?_)
      rw [hq, if_neg hwv, hu]

/-- One more component in front of what the later searches find. -/
theorem Explores.cons_found (h : s.Explores f a super q vs) {fd : Found} (hfd : fd.Splits f a super)
    (hnd : fd.component.vars.Nodup) (hv : v ∈ fd.component.vars)
    (hu : ∀ w ∈ fd.component.vars, p.varMark w = .unseen)
    (hq : ∀ w, q.varMark w = if w ∈ fd.component.vars then .placed else p.varMark w)
    (htaken : ∀ k ∈ fd.component.clauses, p.clauseMark k ≠ .placed ∧ q.clauseMark k = .placed)
    (hk : ∀ k, p.clauseMark k = .placed → q.clauseMark k = .placed) :
    Explores { s with found := fd :: s.found } f a super p (v :: vs) := by
  have hq' : ∀ w, q.varMark w = .unseen → w ∉ fd.component.vars ∧ p.varMark w = .unseen := fun w hw => by
    rw [hq] at hw
    split at hw
    · cases hw
    · exact ⟨‹_›, hw⟩
  have hvars : List.Perm (Split.vars { s with found := fd :: s.found }) (fd.component.vars ++ s.vars) := by
    simp only [Split.vars, List.flatMap_cons]
    exact List.perm_append_comm_assoc ..
  refine ⟨h.fits, h.isolated, List.forall_mem_cons.2 ⟨hfd, h.found⟩, ?_, fun w hw => ?_, fun w hw hwu => ?_, ?_, ?_⟩
  · refine hvars.nodup_iff.2 (List.nodup_append.2 ⟨hnd, h.nodup, fun x hx y hy => ?_⟩)
    rintro rfl
    exact (hq' x (h.unseen x hy)).1 hx
  · rcases List.mem_append.1 (hvars.mem_iff.1 hw) with hw | hw
    · exact hu w hw
    · exact (hq' w (h.unseen w hw)).2
  · rw [hvars.mem_iff, List.mem_append]
    by_cases hwf : w ∈ fd.component.vars
    · exact .inl hwf
    · have hne : w ≠ v := by rintro rfl; exact hwf hv
      refine .inr (h.complete w ((List.mem_cons.1 hw).resolve_left hne) ?_)
      rw [hq, if_neg hwf, hwu]
  · -- The clauses taken now are placed, and later searches take none that is.
    exact List.pairwise_cons.2 ⟨fun fd' hfd' k hkf hkf' => h.unplaced fd' hfd' k hkf' (htaken k hkf).2,
      h.clauses_disjoint⟩
  · exact List.forall_mem_cons.2 ⟨fun k hkf => (htaken k hkf).1,
      fun fd' hfd' k hkf => mt (hk k) (h.unplaced fd' hfd' k hkf)⟩

theorem Explores.cons_skip (h : s.Explores f a super p vs) (hv : p.varMark v ≠ .unseen) :
    s.Explores f a super p (v :: vs) := by
  refine ⟨h.fits, h.isolated, h.found, h.nodup, h.unseen, fun w hw hu => ?_, h.clauses_disjoint, h.unplaced⟩
  rcases List.mem_cons.1 hw with rfl | hw
  · exact (hv hu).elim
  · exact h.complete w hw hu

end Split

namespace Pass

variable {f : Formula} {a : Assignment} {super : Component}

theorem Between.splitFrom (hfit : super.Within f) : ∀ (vs : List Var) {p : Pass}, Between f a super p →
    (p.splitFrom (.ofFormula f) a super vs).Explores f a super p vs
  | [], p, hb => ⟨hb.fits, by simp [Pass.splitFrom], by simp [Pass.splitFrom], by simp [Pass.splitFrom, Split.vars],
      by simp [Pass.splitFrom, Split.vars], by simp, by simp [Pass.splitFrom], by simp [Pass.splitFrom]⟩
  | v :: vs, p, hb => by
    rw [Pass.splitFrom]
    split
    · rename_i hv
      exact (Between.splitFrom hfit vs hb).cons_skip hv
    · rename_i hv
      simp only [ne_eq, Decidable.not_not] at hv
      have hs := hb.toReady.search hfit hv
      unfold explore
      simp only
      -- The search reached the seed alone if and only if the seed is isolated.
      by_cases hsize : (p.search (.ofFormula f) a v).worklist.size = 1
      · have hiso := (hs.isolated_iff hb.toReady).1 hsize
        obtain ⟨hb', hq⟩ := hs.between_isolated hb hiso
        rw [if_pos hsize]
        exact (Between.splitFrom hfit vs hb').cons_isolated hiso hv hq fun k hk =>
          (clauseMark_markVar ..).trans (hs.clauseMark_placed hk)
      · have hiso := mt (hs.isolated_iff hb.toReady).2 hsize
        obtain ⟨hfd, hvars, hb', hq⟩ := hs.takeComponent hfit hb hiso rfl
        obtain ⟨htaken, hplaced⟩ := hs.clauses_taken hfit rfl
        rw [if_neg hsize]
        refine (Between.splitFrom hfit vs hb').cons_found hfd (hfd.vars_sublist.nodup hfit.nodup_vars)
          ((hvars v).2 hs.seed_mem) (fun w hw => hs.unseen w ((hvars w).1 hw)) (fun w => ?_) htaken hplaced
        rw [hq]
        exact if_congr (hvars w).symm rfl rfl

end Pass

/-- What a pass over the super-component finds: every variable that takes part once, either as an
isolated variable or in a connected component of two variables or more. -/
structure Split.Decomposes (s : Split) (f : Formula) (a : Assignment) (super : Component) : Prop where
  fits : s.pass.Fits f
  found : ∀ fd ∈ s.found, fd.Splits f a super
  mem_isolated : ∀ v, v ∈ s.isolated ↔ f.Isolated a super v
  vars_perm : s.vars.Perm (super.vars.filter a.isActive)
  /-- No clause is in two components. -/
  clauses_disjoint : s.found.Pairwise fun fd fd' => fd.component.clauses.Disjoint fd'.component.clauses

/-- A pass decomposes its super-component, whatever state it starts from. -/
theorem Pass.split_decomposes {f : Formula} {a : Assignment} {super : Component} (hfit : super.Within f) {p : Pass}
    (hp : p.Fits f) : (p.split (.ofFormula f) a super).Decomposes f a super := by
  have h := Between.splitFrom hfit super.vars (begin_between (a := a) hfit hp)
  obtain ⟨-, hbegin, -⟩ := begin_reads (a := a) hfit hp
  have hmem : ∀ v, v ∈ (p.split (.ofFormula f) a super).vars ↔ super.TakesPart a v := fun v => by
    have hu : (p.begin a super).varMark v = .unseen ↔ super.TakesPart a v := by
      rw [hbegin]; unfold Component.TakesPart; split <;> simp_all
    exact ⟨fun hv => hu.1 (h.unseen v hv), fun hv => h.complete v hv.1 (hu.2 hv)⟩
  refine ⟨h.fits, h.found, fun v => ⟨h.isolated v, fun hiso => ?_⟩, ?_, h.clauses_disjoint⟩
  · refine (Split.mem_vars.1 ((hmem v).2 hiso.1)).resolve_right ?_
    rintro ⟨fd, hfd, hv⟩
    have hs := h.found fd hfd
    have hsub : fd.component.vars ⊆ [v] := fun w hw =>
      List.mem_singleton.2 (Formula.eq_of_reachable_isolated hiso ((hs.mem_iff v hv w).1 hw))
    have hle := (List.subperm_of_subset (hs.vars_sublist.nodup hfit.nodup_vars) hsub).length_le
    exact absurd (hs.two_le.trans hle) (by simp)
  · refine (List.perm_ext_iff_of_nodup h.nodup (hfit.nodup_vars.filter _)).2 fun v => ?_
    rw [List.mem_filter]
    exact hmem v

namespace Split.Decomposes

variable {s : Split} {f : Formula} {a : Assignment} {super : Component}

theorem nodup (h : s.Decomposes f a super) (hfit : super.Within f) : s.vars.Nodup :=
  h.vars_perm.nodup_iff.2 (hfit.nodup_vars.filter _)

/-- The sets of variables found are the connected components of two variables or more. -/
theorem exists_found_iff (h : s.Decomposes f a super) (hfit : super.Within f) (S : Set Var) :
    (∃ fd ∈ s.found, {v | v ∈ fd.component.vars} = S) ↔
      ∃ K : (f.linkGraph a super).ConnectedComponent, K.supp = S ∧ S.Nontrivial := by
  constructor
  · rintro ⟨fd, hfd, rfl⟩
    have hs := h.found fd hfd
    match hvars : fd.component.vars with
    | [] | [_] => exact absurd hs.two_le (by simp [hvars])
    | v :: w :: rest =>
      have hv : v ∈ fd.component.vars := by simp [hvars]
      refine ⟨(f.linkGraph a super).connectedComponentMk v, ?_, v, by simp, w, by simp, ?_⟩
      · ext u
        rw [SimpleGraph.ConnectedComponent.mem_supp_iff, SimpleGraph.ConnectedComponent.eq, ← hvars]
        exact ⟨fun hr => (hs.mem_iff v hv u).2 hr.symm, fun hu => ((hs.mem_iff v hv u).1 hu).symm⟩
      · have hnd := hs.vars_sublist.nodup hfit.nodup_vars
        rw [hvars, List.nodup_cons] at hnd
        rintro rfl
        exact hnd.1 (List.mem_cons_self ..)
  · rintro ⟨K, rfl, v, hv, w, hw, hne⟩
    induction K using SimpleGraph.ConnectedComponent.ind with
    | h x =>
      rw [SimpleGraph.ConnectedComponent.mem_supp_iff, SimpleGraph.ConnectedComponent.eq] at hv hw
      have hvw : (f.linkGraph a super).Reachable v w := hv.trans hw.symm
      -- A variable that reaches another one has a link, so it takes part and is not isolated.
      have htakes : super.TakesPart a v := by
        obtain ⟨walk⟩ := hvw
        cases walk with
        | nil => exact (hne rfl).elim
        | cons hadj _ => exact hadj.2.1
      have hmem : v ∈ s.vars := h.vars_perm.mem_iff.2 (List.mem_filter.2 htakes)
      rcases Split.mem_vars.1 hmem with hiso | ⟨fd, hfd, hvf⟩
      · exact (hne (Formula.eq_of_reachable_isolated ((h.mem_isolated v).1 hiso) hvw).symm).elim
      · refine ⟨fd, hfd, ?_⟩
        ext u
        rw [SimpleGraph.ConnectedComponent.mem_supp_iff, SimpleGraph.ConnectedComponent.eq]
        exact ((h.found fd hfd).mem_iff v hvf u).trans ⟨fun hu => hu.symm.trans hv, fun hu => hv.trans hu.symm⟩

/-- No variable is in two components. -/
theorem found_disjoint (h : s.Decomposes f a super) (hfit : super.Within f) :
    s.found.Pairwise fun fd fd' => fd.component.vars.Disjoint fd'.component.vars :=
  (List.nodup_flatMap.1 (List.nodup_append.1 (h.nodup hfit)).2.1).2

end Split.Decomposes

end ModelCount
