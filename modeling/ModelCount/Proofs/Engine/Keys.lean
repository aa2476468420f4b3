/-
A key tells the component it was made from, although it leaves out the clauses that lost no variable.
Along a chain of nested passes no clause is lost whose variables are all still there: its variables
take part and it has no true literal, so the search that finds them comes to the clause. The clauses
that a key leaves out are therefore the long clauses over its variables that it does not list.
-/
import ModelCount.Proofs.Engine.Decomposition
import ModelCount.Proofs.Residual

namespace ModelCount

/-- The components that nested passes over a loaded formula find, with their views for the cache. The
chain starts at the root component; every pass is over a component found by the one before, in any
state of the engine. -/
inductive Formula.Arises (f : Formula) : Component → Component → Prop
  | root : f.Arises (Engine.root f) (Engine.root f)
  | found {c view : Component} {e : Engine} (entry : Option Slot) {fd : Found} (outer : f.Arises c view)
    (loaded : e.Loaded f) (mem : fd ∈ (e.passOver { c with entry }).found) : f.Arises fd.component fd.view

/-- What holds of every component that arises. -/
structure Component.Complete (c view : Component) (f : Formula) : Prop where
  vars_sublist : c.vars.Sublist f.vars
  clauses_sublist : c.clauses.Sublist f.clauseIds
  view_vars : view.vars = c.vars
  view_clauses : view.clauses.Sublist c.clauses
  entry_eq : c.entry = none
  /-- Every long clause over the variables is a clause of the component. -/
  clause_mem : ∀ k ∈ f.clauseIds, (∀ l ∈ f.lits k, l.var ∈ c.vars) → k ∈ c.clauses
  /-- The view leaves out only clauses over the variables. -/
  var_mem : ∀ k ∈ c.clauses, k ∉ view.clauses → ∀ l ∈ f.lits k, l.var ∈ c.vars

namespace Component.Complete

variable {f : Formula} {c view : Component}

theorem within (h : c.Complete view f) : c.Within f :=
  (Engine.within_root f).of_sublist h.vars_sublist h.clauses_sublist

theorem view_within (h : c.Complete view f) : view.Within f :=
  h.within.of_sublist (h.view_vars ▸ .refl _) h.view_clauses

theorem root (f : Formula) : (Engine.root f).Complete (Engine.root f) f :=
  ⟨.refl _, .refl _, rfl, .refl _, rfl, fun _ hk _ => hk, fun _ hk hn => (hn hk).elim⟩

/-- What a pass finds in a complete component is complete. -/
theorem splits (h : c.Complete view f) {a : Assignment} {entry : Option Slot} {fd : Found}
    (hs : fd.Splits f a { c with entry }) : fd.component.Complete fd.view f := by
  refine ⟨hs.vars_sublist.trans h.vars_sublist, hs.clauses_sublist.trans h.clauses_sublist, ?_, ?_, hs.entry_eq,
    fun k hk hl => ?_, fun k hk hn l hl => ?_⟩
  · rw [hs.view_eq]
  · rw [hs.view_eq]
    exact List.filter_sublist
  · -- All variables of the clause take part, so it has no true literal and the search met it.
    have hwhole : f.Whole a { c with entry } k := fun l hl' => hs.takesPart _ (hl l hl')
    have hmem := h.clause_mem k hk fun l hl' => (hwhole l hl').1
    obtain ⟨v, -, -, ⟨l, hl', rfl⟩, -⟩ := Formula.exists_mentions_ne hk
    exact hs.clause_mem k hmem (Formula.not_satisfied_of_whole hwhole) l.var (hl l hl') ⟨l, hl', rfl⟩
  · have hmem := hs.clauses_sublist.subset hk
    have hwhole : f.Whole a { c with entry } k := by
      by_contra hw
      exact hn (by rw [hs.view_eq]; exact List.mem_filter.2 ⟨hk, by simpa using hw⟩)
    have hsat := hs.not_satisfied k hk
    rcases hs.mentions k hk with ⟨v, hv, hkv⟩ | ⟨x, hx, hkx⟩
    · by_cases hne : v = l.var
      · exact hne ▸ hv
      · have hadj := Formula.linkGraph_of_mentions (hs.takesPart v hv) (hwhole l hl) hne hmem hsat hkv ⟨l, hl, rfl⟩
        exact (hs.mem_iff v hv l.var).2 hadj.reachable
    · -- A clause of an isolated variable has a variable that takes no part, so no view leaves it out.
      exact (Formula.not_whole_of_isolated hx hmem hsat hkx hwhole).elim

end Component.Complete

theorem Formula.Arises.complete {f : Formula} {c view : Component} (h : f.Arises c view) : c.Complete view f := by
  induction h with
  | root => exact .root f
  | @found c view e entry fd outer loaded mem ih =>
    have hw : ({ c with entry } : Component).Within f := ih.within.of_sublist (.refl _) (.refl _)
    exact ih.splits ((loaded.passOver_decomposes hw).found fd mem)

/-- Two parts of a list without repeats that have the same elements are equal. -/
theorem eq_of_sublist_of_perm {α : Type} {l l₁ l₂ : List α} {key : α → Nat} (hl : l.Pairwise fun x y => key x < key y)
    (h₁ : l₁.Sublist l) (h₂ : l₂.Sublist l) (h : l₁.Perm l₂) : l₁ = l₂ :=
  h.eq_of_pairwise (fun _ _ _ _ hxy hyx => absurd (hxy.trans hyx) (Nat.lt_irrefl _)) (hl.sublist h₁) (hl.sublist h₂)

theorem firstN_pairwise (n : Nat) : (Var.firstN n).Pairwise fun v w => v.id < w.id :=
  List.pairwise_map.2 (List.pairwise_lt_range.imp fun h => Nat.succ_lt_succ h)

theorem firstN_clauses_pairwise (n : Nat) : (ClauseId.firstN n).Pairwise fun j k => j.id < k.id :=
  List.pairwise_map.2 (List.pairwise_lt_range.imp fun h => Nat.succ_lt_succ h)

/-- Complete components with the same view are the same. -/
theorem Component.Complete.eq_of_view_perm {f : Formula} {c d viewC viewD : Component} (hc : c.Complete viewC f)
    (hd : d.Complete viewD f) (hv : viewC.vars.Perm viewD.vars) (hk : viewC.clauses.Perm viewD.clauses) :
    c.vars = d.vars ∧ c.clauses = d.clauses := by
  have hvars : c.vars = d.vars := by
    rw [hc.view_vars, hd.view_vars] at hv
    exact eq_of_sublist_of_perm (firstN_pairwise _) hc.vars_sublist hd.vars_sublist hv
  refine ⟨hvars, eq_of_sublist_of_perm (firstN_clauses_pairwise _) hc.clauses_sublist hd.clauses_sublist ?_⟩
  -- A clause of one component is in both views, or all its variables are there and both have it.
  have hsub : ∀ {c d viewC viewD : Component}, c.Complete viewC f → d.Complete viewD f → c.vars = d.vars →
      viewC.clauses.Perm viewD.clauses → c.clauses ⊆ d.clauses := fun {c d viewC viewD} hc hd hvars hk k hkc => by
    by_cases hview : k ∈ viewC.clauses
    · exact hd.view_clauses.subset (hk.subset hview)
    · exact hd.clause_mem k (hc.clauses_sublist.subset hkc) fun l hl => hvars ▸ hc.var_mem k hkc hview l hl
  exact (List.perm_ext_iff_of_nodup hc.within.nodup_clauses hd.within.nodup_clauses).2 fun k =>
    ⟨fun h => hsub hc hd hvars hk h, fun h => hsub hd hc hvars.symm hk.symm h⟩

/-- Components that arise are the same if their keys have the same words. -/
theorem Formula.Arises.eq_of_words_eq {f : Formula} {s : PackingScheme} {c d viewC viewD : Component} {k l : PackedKey}
    (hc : f.Arises c viewC) (hd : f.Arises d viewD) (hk : PackedKey.encode s viewC = .ok k)
    (hl : PackedKey.encode s viewD = .ok l) (h : k.words = l.words) : c.vars = d.vars ∧ c.clauses = d.clauses := by
  obtain ⟨hv, hcl⟩ := PackedKey.perm_of_encode hk hl h
  exact hc.complete.eq_of_view_perm hd.complete hv hcl

/-- A key determines its component: if components that nested passes found have keys with the same
words, then they have the same variables and the same clauses, those that the views leave out
included, and so the same residual formula and as many models. -/
theorem Formula.Arises.eq_of_key_eq {f : Formula} {e : Engine} (he : e.Loaded f) {c d viewC viewD : Component}
    (hc : f.Arises c viewC) (hd : f.Arises d viewD) :
    ∃ k l, PackedKey.encode e.cache.scheme viewC = .ok k ∧ PackedKey.encode e.cache.scheme viewD = .ok l ∧
      (k.words = l.words → c.vars = d.vars ∧ c.clauses = d.clauses ∧ f.residual c = f.residual d ∧
        f.residualCount c = f.residualCount d) := by
  obtain ⟨k, hk⟩ := he.encode_isOk hc.complete.view_within
  obtain ⟨l, hl⟩ := he.encode_isOk hd.complete.view_within
  refine ⟨k, l, hk, hl, fun h => ?_⟩
  obtain ⟨hv, hcl⟩ := hc.eq_of_words_eq hd hk hl h
  exact ⟨hv, hcl, Formula.residual_congr hv hcl⟩

/-- The part of the long clauses is found twice, once with the first variable unassigned and once with
it true. Its view leaves both clauses out. -/
theorem Formula.Arises.eq_of_key_eq_twoParts :
    ∃ (e e' : Engine) (fd fd' : Found), e.Loaded (.ofCnf .twoParts) ∧ e'.Loaded (.ofCnf .twoParts) ∧
      fd ∈ (e.passOver (Engine.root (.ofCnf .twoParts))).found ∧
      fd' ∈ (e'.passOver (Engine.root (.ofCnf .twoParts))).found ∧
      e.assignment ≠ e'.assignment ∧ fd.component.clauses ≠ [] ∧ fd.view.clauses = [] ∧
      fd.component.vars = fd'.component.vars ∧ fd.component.clauses = fd'.component.clauses ∧
      (Formula.ofCnf .twoParts).residualCount fd.component = (Formula.ofCnf .twoParts).residualCount fd'.component := by
  let scheme : PackingScheme := { varBits := 3, clauseBits := 2, sizeBits := 4 }
  let a : Assignment := .empty 7
  let a' : Assignment := a.set ⟨⟨1, by decide⟩, true⟩
  have hscheme : PackingScheme.ofMax (Formula.ofCnf .twoParts).varCount (Formula.ofCnf .twoParts).longs.length =
      .ok scheme := by decide
  have he := Engine.loaded_bare (f := .ofCnf .twoParts) (a := a) (by decide) hscheme
  have he' := Engine.loaded_bare (f := .ofCnf .twoParts) (a := a') (by decide) hscheme
  have hfound : ∃ fd ∈ ((Engine.bare (.ofCnf .twoParts) scheme a).passOver (Engine.root (.ofCnf .twoParts))).found,
      ∃ fd' ∈ ((Engine.bare (.ofCnf .twoParts) scheme a').passOver (Engine.root (.ofCnf .twoParts))).found,
        fd.component.clauses ≠ [] ∧ fd.view.clauses = [] ∧ fd.view = fd'.view := by decide +kernel
  obtain ⟨fd, hmem, fd', hmem', hclauses, hcut, hview⟩ := hfound
  have hc : Formula.Arises _ fd.component fd.view := .found none .root he hmem
  have hd : Formula.Arises _ fd'.component fd'.view := .found none .root he' hmem'
  obtain ⟨k, l, hk, hl, h⟩ := Formula.Arises.eq_of_key_eq he hc hd
  have hkl : k = l := Except.ok.inj (by rw [← hk, ← hl, hview])
  obtain ⟨hv, hcl, -, hcount⟩ := h (congrArg PackedKey.words hkl)
  exact ⟨_, _, fd, fd', he, he', hmem, hmem', by decide, hclauses, hcut, hv, hcl, hcount⟩

end ModelCount
