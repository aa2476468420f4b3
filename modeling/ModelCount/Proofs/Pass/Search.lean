/-
A search walks over one connected component of the link graph. While it runs, the seen variables
are those of the worklist and are all reachable from the seed, and a clause the search came to has
its final mark and, if it is not satisfied, all its variables that take part in the worklist. At the
end every variable of the worklist was visited, so the worklist is closed under links.
-/
import Mathlib.Data.List.Perm.Subperm
import ModelCount.Proofs.Pass.Links

namespace ModelCount

namespace Pass

variable {f : Formula} {a : Assignment} {super : Component}

/-! ## Between two searches -/

/-- The state between two searches of a pass: no variable is seen, and what is unseen is closed
under links and under the clauses that are not satisfied. -/
structure Ready (f : Formula) (a : Assignment) (super : Component) (p : Pass) : Prop where
  fits : p.Fits f
  outside : ∀ v, p.varMark v = .outside ↔ ¬ super.TakesPart a v
  not_seen : ∀ v, p.varMark v ≠ .seen
  clause_mem : ∀ c, p.clauseMark c = .unseen → c ∈ super.clauses
  closed : ∀ v w, p.varMark v = .unseen → (f.linkGraph a super).Adj v w → p.varMark w = .unseen
  clause_unseen : ∀ c ∈ super.clauses, ¬ f.Satisfied a c → ∀ v, f.Mentions c v → p.varMark v = .unseen →
    p.clauseMark c = .unseen

theorem Ready.takesPart {p : Pass} (h : Ready f a super p) {v : Var} (hv : p.varMark v = .unseen) :
    super.TakesPart a v := by
  by_contra hn
  rw [(h.outside v).2 hn] at hv
  cases hv

/-! ## The search under way -/

/-- The state of a search from `seed` that began at `p₀`. -/
structure Searching (f : Formula) (a : Assignment) (super : Component) (p₀ : Pass) (seed : Var) (p : Pass) :
    Prop where
  fits : p.Fits f
  nodup : p.worklist.toList.Nodup
  reachable : ∀ v ∈ p.worklist.toList, p₀.varMark v = .unseen ∧ (f.linkGraph a super).Reachable seed v
  varMark : ∀ v, p.varMark v = if v ∈ p.worklist.toList then .seen else p₀.varMark v
  clauseMark : ∀ c, p.clauseMark c = p₀.clauseMark c ∨
    (p₀.clauseMark c = .unseen ∧ (∃ v ∈ p.worklist.toList, f.Mentions c v) ∧ p.clauseMark c = f.metMark a super c)
  met : ∀ c, p₀.clauseMark c = .unseen → p.clauseMark c ≠ .unseen → ¬ f.Satisfied a c →
    ∀ v, f.Mentions c v → super.TakesPart a v → v ∈ p.worklist.toList

/-- A later state of the same search. -/
structure Grows (p q : Pass) : Prop where
  worklist : p.worklist.toList <+: q.worklist.toList
  clauseMark : ∀ c, p.clauseMark c ≠ .unseen → q.clauseMark c ≠ .unseen

theorem Grows.refl (p : Pass) : Grows p p := ⟨List.prefix_refl _, fun _ h => h⟩

theorem Grows.trans {p q r : Pass} (h : Grows p q) (h' : Grows q r) : Grows p r :=
  ⟨h.worklist.trans h'.worklist, fun c hc => h'.clauseMark c (h.clauseMark c hc)⟩

theorem Grows.mem {p q : Pass} (h : Grows p q) {v : Var} (hv : v ∈ p.worklist.toList) : v ∈ q.worklist.toList :=
  h.worklist.subset hv

theorem Grows.raise {p q : Pass} (h : Grows p q) (v : Var) : Grows p (q.raise v) := ⟨h.worklist, h.clauseMark⟩

/-- All links of a variable were followed. -/
structure Visited (f : Formula) (a : Assignment) (super : Component) (p₀ : Pass) (v : Var) (p : Pass) : Prop where
  shares : ∀ w, f.Shares v w → super.TakesPart a w → w ∈ p.worklist.toList
  mentions : ∀ c, f.Mentions c v → p₀.clauseMark c = .unseen → p.clauseMark c ≠ .unseen

theorem Visited.grows {p₀ p q : Pass} {v : Var} (h : Visited f a super p₀ v p) (hg : Grows p q) :
    Visited f a super p₀ v q :=
  ⟨fun w hw ht => hg.mem (h.shares w hw ht), fun c hc hu => hg.clauseMark c (h.mentions c hc hu)⟩

/-- The variables of the worklist before a position were visited. -/
def VisitedBefore (f : Formula) (a : Assignment) (super : Component) (p₀ : Pass) (position : Nat) (p : Pass) : Prop :=
  ∀ u ∈ p.worklist.toList.take position, Visited f a super p₀ u p

namespace VisitedBefore

variable {p₀ p q : Pass} {position : Nat} {v : Var}

theorem zero (p₀ p : Pass) : VisitedBefore f a super p₀ 0 p :=
  fun u hu => by simp at hu

/-- Once the position is past the worklist, everything was visited. -/
theorem all (h : VisitedBefore f a super p₀ position p) (hsize : p.worklist.size ≤ position) :
    ∀ u ∈ p.worklist.toList, Visited f a super p₀ u p := by
  rwa [VisitedBefore, List.take_of_length_le (by rwa [Array.length_toList])] at h

/-- The worklist only grows at its end. -/
theorem getElem?_grows (hv : p.worklist.toList[position]? = some v) (hg : Grows p q) :
    q.worklist.toList[position]? = some v := by
  obtain ⟨new, hnew⟩ := hg.worklist
  rw [← hnew, List.getElem?_append_left (List.getElem?_eq_some_iff.1 hv).1, hv]

theorem grows (h : VisitedBefore f a super p₀ position p) (hv : p.worklist.toList[position]? = some v)
    (hg : Grows p q) : VisitedBefore f a super p₀ position q := by
  obtain ⟨new, hnew⟩ := hg.worklist
  have hlt := (List.getElem?_eq_some_iff.1 hv).1
  rw [VisitedBefore, ← hnew, List.take_append_of_le_length (Nat.le_of_lt hlt)]
  exact fun u hu => (h u hu).grows hg

/-- What was visited stays visited, and the variable at the position is visited next. -/
theorem visit (h : VisitedBefore f a super p₀ position p) (hv : p.worklist.toList[position]? = some v)
    (hg : Grows p q) (hvv : Visited f a super p₀ v q) : VisitedBefore f a super p₀ (position + 1) q := by
  intro u hu
  rw [List.take_add_one, getElem?_grows hv hg, List.mem_append] at hu
  rcases hu with hu | hu
  · exact h.grows hv hg u hu
  · obtain rfl : u = v := by simpa using hu
    exact hvv

end VisitedBefore

section

variable {p₀ : Pass} {seed : Var} {p : Pass}

theorem Searching.takesPart (hr : Ready f a super p₀) (hs : Searching f a super p₀ seed p) {v : Var}
    (hv : v ∈ p.worklist.toList) : super.TakesPart a v :=
  hr.takesPart (hs.reachable v hv).1

theorem Searching.isOutside_iff (hr : Ready f a super p₀) (hs : Searching f a super p₀ seed p) (v : Var) :
    p.isOutside v = true ↔ ¬ super.TakesPart a v := by
  simp only [isOutside, beq_iff_eq, hs.varMark]
  split
  · rename_i hv
    simp [hs.takesPart hr hv]
  · exact hr.outside v

/-- Under the marks of a search, a literal satisfies its clause as soon as it is true. -/
theorem Searching.satisfies_iff (hr : Ready f a super p₀) (hs : Searching f a super p₀ seed p) (l : Lit) :
    p.satisfies a l = a.isTrue l := by
  by_cases ht : a.isTrue l = true
  · simp [satisfies, ht, (hs.isOutside_iff hr _).2 (Formula.not_takesPart_of_isTrue super ht)]
  · simp [satisfies, ht]

/-- What is linked to the worklist and takes part is either in the worklist or still unseen. -/
theorem Searching.mem_or_unseen (hr : Ready f a super p₀) (hs : Searching f a super p₀ seed p) {v w : Var}
    (hv : v ∈ p.worklist.toList) (hlink : v = w ∨ (f.linkGraph a super).Adj v w) :
    w ∈ p.worklist.toList ∨ p.varMark w = .unseen := by
  rw [hs.varMark]
  split
  · exact .inl ‹_›
  · rename_i hw
    rcases hlink with rfl | hadj
    · exact (hw hv).elim
    · exact .inr (hr.closed v w (hs.reachable v hv).1 hadj)

theorem Searching.raise (hs : Searching f a super p₀ seed p) (v : Var) : Searching f a super p₀ seed (p.raise v) :=
  ⟨⟨hs.fits.vars, hs.fits.clauses, (Table.size_set ..).trans hs.fits.scores⟩, hs.nodup, hs.reachable, hs.varMark,
    hs.clauseMark, hs.met⟩

/-- Reaching an unseen variable that is linked to the worklist. -/
theorem Searching.reach (hs : Searching f a super p₀ seed p) {v w : Var} (hv : v ∈ p.worklist.toList)
    (hw : p.varMark w = .unseen) (hadj : (f.linkGraph a super).Adj v w) :
    Searching f a super p₀ seed (p.reach w) := by
  have hnot : w ∉ p.worklist.toList := fun h => by
    rw [hs.varMark, if_pos h] at hw; cases hw
  have hlist : (p.reach w).worklist.toList = p.worklist.toList ++ [w] := by simp
  have hsub : ∀ u ∈ p.worklist.toList, u ∈ (p.reach w).worklist.toList := fun u hu => by
    rw [hlist]; exact List.mem_append_left _ hu
  have hlt := index_lt_of_varMark (p := p) (v := w) (by rw [hw]; simp)
  refine ⟨⟨(Table.size_set ..).trans hs.fits.vars, hs.fits.clauses, hs.fits.scores⟩, ?_, ?_, fun u => ?_,
    fun c => ?_, fun c h0 h1 h2 u hu ht => hsub u (hs.met c h0 h1 h2 u hu ht)⟩
  · rw [hlist]
    exact List.nodup_append.2 ⟨hs.nodup, List.nodup_singleton w, fun x hx y hy => by
      rw [List.mem_singleton] at hy; subst hy; rintro rfl; exact hnot hx⟩
  · intro u hu
    rw [hlist, List.mem_append, List.mem_singleton] at hu
    rcases hu with hu | rfl
    · exact hs.reachable u hu
    · refine ⟨?_, (hs.reachable v hv).2.trans hadj.reachable⟩
      rw [hs.varMark, if_neg hnot] at hw
      exact hw
  · rw [varMark_reach, hlist, hs.varMark]
    simp only [List.mem_append, List.mem_singleton]
    by_cases hu : w = u
    · subst hu; simp [hlt]
    · simp [hu, Ne.symm hu]
  · rcases hs.clauseMark c with h | ⟨h1, ⟨u, hu, hm⟩, h2⟩
    · exact .inl h
    · exact .inr ⟨h1, ⟨u, hsub u hu, hm⟩, h2⟩

theorem grows_reach (p : Pass) (v : Var) : Grows p (p.reach v) := ⟨by simp, fun _ h => h⟩

/-! ## Links of a variable -/

theorem Searching.follow (hr : Ready f a super p₀) (hs : Searching f a super p₀ seed p) {v w : Var}
    (hv : v ∈ p.worklist.toList) (hvw : f.Shares v w) :
    Searching f a super p₀ seed (follow v p w) ∧ Grows p (follow v p w) ∧
      (super.TakesPart a w → w ∈ (Pass.follow v p w).worklist.toList) := by
  unfold Pass.follow
  split
  · rename_i hw
    have htw : super.TakesPart a w := by
      by_contra hn
      rw [← hs.isOutside_iff hr, isOutside, hw] at hn
      cases hn
    have hadj := Formula.linkGraph_of_shares (hs.takesPart hr hv) htw hvw
    exact ⟨((hs.reach hv hw hadj).raise v).raise w, ((grows_reach p w).raise v).raise w, fun _ => by simp⟩
  · rename_i hw
    refine ⟨hs, Grows.refl p, fun htw => ?_⟩
    exact (hs.mem_or_unseen hr hv (.inr (Formula.linkGraph_of_shares (hs.takesPart hr hv) htw hvw))).resolve_right hw

theorem Searching.meet (hs : Searching f a super p₀ seed p) (hr : Ready f a super p₀) {v w : Var}
    (hv : v ∈ p.worklist.toList) (hlink : v = w ∨ (f.linkGraph a super).Adj v w) :
    Searching f a super p₀ seed (p.meet w) ∧ Grows p (p.meet w) ∧ w ∈ (p.meet w).worklist.toList ∧
      ∀ c, (p.meet w).clauseMark c = p.clauseMark c := by
  simp only [Pass.meet]
  split
  · rename_i hw
    have hne : v ≠ w := by
      rintro rfl
      rw [varMark_raise, hs.varMark, if_pos hv] at hw
      cases hw
    exact ⟨(hs.raise w).reach hv hw (hlink.resolve_left hne), ((Grows.refl p).raise w).trans (grows_reach _ w),
      by simp, fun _ => rfl⟩
  · rename_i hw
    exact ⟨hs.raise w, (Grows.refl p).raise w, (hs.mem_or_unseen hr hv hlink).resolve_right hw, fun _ => rfl⟩

/-- Meeting the literals of a clause that the search came to from `v`. -/
theorem Searching.meetAll (hr : Ready f a super p₀) {v : Var} (lits : List Lit) :
    ∀ {p : Pass}, Searching f a super p₀ seed p → v ∈ p.worklist.toList →
      (∀ l ∈ lits, v = l.var ∨ (f.linkGraph a super).Adj v l.var) →
      Searching f a super p₀ seed (p.meetAll lits) ∧ Grows p (p.meetAll lits) ∧
        (∀ l ∈ lits, l.var ∈ (p.meetAll lits).worklist.toList) ∧
        ∀ c, (p.meetAll lits).clauseMark c = p.clauseMark c := by
  induction lits with
  | nil => exact fun hs _ _ => ⟨hs, Grows.refl _, by simp, fun _ => rfl⟩
  | cons l lits ih =>
    intro p hs hv hlink
    obtain ⟨hs', hg, hl, hc⟩ := hs.meet hr hv (hlink l (List.mem_cons_self ..))
    obtain ⟨hs'', hg', hls, hc'⟩ := ih hs' (hg.mem hv) fun m hm => hlink m (List.mem_cons_of_mem _ hm)
    refine ⟨hs'', hg.trans hg', fun m hm => ?_, fun c => (hc' c).trans (hc c)⟩
    rcases List.mem_cons.1 hm with rfl | hm
    · exact hg'.mem hl
    · exact hls m hm

/-- A clause that is unseen while the search runs was so when it began. -/
theorem Searching.unseen_before (hs : Searching f a super p₀ seed p) {c : ClauseId} (hu : p.clauseMark c = .unseen) :
    p₀.clauseMark c = .unseen := by
  rcases hs.clauseMark c with h | ⟨h, -, -⟩
  · rw [← h, hu]
  · exact h

/-- Giving a clause its mark, once its variables are in the worklist. -/
theorem Searching.markClause (hs : Searching f a super p₀ seed p) {v : Var} {c : ClauseId}
    (hv : v ∈ p.worklist.toList) (hcv : f.Mentions c v) (hu : p.clauseMark c = .unseen)
    (hmet : ¬ f.Satisfied a c → ∀ w, f.Mentions c w → super.TakesPart a w → w ∈ p.worklist.toList) :
    Searching f a super p₀ seed (p.markClause c (f.metMark a super c)) := by
  have hlt := index_lt_of_clauseMark (p := p) (c := c) (by rw [hu]; simp)
  have h0 := hs.unseen_before hu
  refine ⟨⟨hs.fits.vars, (Table.size_set ..).trans hs.fits.clauses, hs.fits.scores⟩, hs.nodup, hs.reachable,
    hs.varMark, fun d => ?_, fun d hd hne hsat w hw htw => ?_⟩
  · rw [clauseMark_markClause]
    by_cases hd : c = d
    · subst hd
      rw [if_pos ⟨rfl, hlt⟩]
      exact .inr ⟨h0, ⟨v, hv, hcv⟩, rfl⟩
    · rw [if_neg fun h => hd h.1]
      exact hs.clauseMark d
  · by_cases hdc : c = d
    · subst hdc; exact hmet hsat w hw htw
    · rw [clauseMark_markClause, if_neg fun h => hdc h.1] at hne
      exact hs.met d hd hne hsat w hw htw

theorem grows_markClause (p : Pass) (c : ClauseId) {m : ClauseMark} (hm : m ≠ .unseen) :
    Grows p (p.markClause c m) := by
  refine ⟨List.prefix_refl _, fun d hd => ?_⟩
  rw [clauseMark_markClause]
  split
  · exact hm
  · exact hd

/-- The state after a clause without a true literal was met at `v`. -/
def meetClause (f : Formula) (a : Assignment) (super : Component) (v : Var) (p : Pass) (c : ClauseId) : Pass :=
  ((p.meetAll (p.inside (f.lits c))).markClause c (f.metMark a super c)).raise v

/-- Under the marks of a search, a clause is dealt with as its literals say: a satisfied clause reaches nothing,
and any other clause reaches all its variables that take part. -/
theorem Searching.visitClause_eq (hr : Ready f a super p₀) (hs : Searching f a super p₀ seed p) (v : Var)
    (c : ClauseId) :
    Pass.visitClause (.ofFormula f) a v p c =
      if p.clauseMark c ≠ .unseen then p
      else if f.Satisfied a c then p.markClause c (f.metMark a super c)
      else meetClause f a super v p c := by
  have hany : (f.lits c).any (p.satisfies a) = true ↔ f.Satisfied a c := by
    simp only [List.any_eq_true, hs.satisfies_iff hr]
    exact Iff.rfl
  have hall : (f.lits c).all (fun l => !p.isOutside l.var) = true ↔ f.Whole a super c := by
    simp only [List.all_eq_true, Bool.not_eq_true', ← Bool.not_eq_true, hs.isOutside_iff hr, not_not]
    exact Iff.rfl
  rw [Pass.visitClause_eq, Adjacency.lits_ofFormula]
  split
  · rfl
  · by_cases hsat : f.Satisfied a c
    · rw [if_pos (hany.2 hsat), if_pos hsat, Formula.metMark_of_satisfied super hsat]
    · rw [if_neg (mt hany.1 hsat), if_neg hsat, meetClause, Formula.metMark_of_not_satisfied super hsat]
      simp only [hall]

theorem Searching.mem_inside (hr : Ready f a super p₀) (hs : Searching f a super p₀ seed p) {c : ClauseId} {l : Lit} :
    l ∈ p.inside (f.lits c) ↔ l ∈ f.lits c ∧ super.TakesPart a l.var := by
  rw [inside, List.mem_filter, Bool.not_eq_true', ← Bool.not_eq_true, hs.isOutside_iff hr, not_not]

/-- The literals that a clause is scanned for are those of `v` itself and of variables linked to it. -/
theorem Searching.inside_linked (hr : Ready f a super p₀) (hs : Searching f a super p₀ seed p) {v : Var}
    (hv : v ∈ p.worklist.toList) {c : ClauseId} (hc : c ∈ super.clauses) (hsat : ¬ f.Satisfied a c)
    (hcv : f.Mentions c v) {l : Lit} (hl : l ∈ p.inside (f.lits c)) :
    v = l.var ∨ (f.linkGraph a super).Adj v l.var := by
  obtain ⟨hl, htl⟩ := (hs.mem_inside hr).1 hl
  by_cases hne : v = l.var
  · exact .inl hne
  · exact .inr (Formula.linkGraph_of_mentions (hs.takesPart hr hv) htl hne hc hsat hcv ⟨l, hl, rfl⟩)

theorem Searching.visitClause (hr : Ready f a super p₀) (hs : Searching f a super p₀ seed p) {v : Var}
    {c : ClauseId} (hv : v ∈ p.worklist.toList) (hcv : f.Mentions c v) :
    Searching f a super p₀ seed (visitClause (.ofFormula f) a v p c) ∧
      Grows p (visitClause (.ofFormula f) a v p c) ∧
      (p₀.clauseMark c = .unseen → (Pass.visitClause (.ofFormula f) a v p c).clauseMark c ≠ .unseen) := by
  rw [hs.visitClause_eq hr]
  split
  · exact ⟨hs, Grows.refl p, fun _ => ‹_›⟩
  · rename_i hu
    simp only [ne_eq, Decidable.not_not] at hu
    have hlt := index_lt_of_clauseMark (p := p) (c := c) (by rw [hu]; simp)
    have hc := hr.clause_mem c (hs.unseen_before hu)
    split
    · rename_i hsat
      refine ⟨hs.markClause hv hcv hu fun h => (h hsat).elim, grows_markClause p c Formula.metMark_ne_unseen,
        fun _ => ?_⟩
      rw [clauseMark_markClause, if_pos ⟨rfl, hlt⟩]
      exact Formula.metMark_ne_unseen
    · rename_i hsat
      obtain ⟨hs', hg, hmem, hmarks⟩ := Searching.meetAll hr _ hs hv fun l hl => hs.inside_linked hr hv hc hsat hcv hl
      have hu' := (hmarks c).trans hu
      refine ⟨(hs'.markClause (hg.mem hv) hcv hu' fun _ w hw htw => ?_).raise v,
        (hg.trans (grows_markClause _ c Formula.metMark_ne_unseen)).raise v, fun _ => ?_⟩
      · obtain ⟨l, hl, rfl⟩ := hw
        exact hmem l ((hs.mem_inside hr).2 ⟨hl, htw⟩)
      · rw [meetClause, clauseMark_raise, clauseMark_markClause,
          if_pos ⟨rfl, by rw [hs'.fits.clauses, ← hs.fits.clauses]; exact hlt⟩]
        exact Formula.metMark_ne_unseen

end

/-! ## Visiting the worklist -/

section

variable {p₀ : Pass} {seed : Var}

theorem Searching.followAll (hr : Ready f a super p₀) {v : Var} (ws : List Var) :
    ∀ {p : Pass}, Searching f a super p₀ seed p → v ∈ p.worklist.toList → (∀ w ∈ ws, f.Shares v w) →
      Searching f a super p₀ seed (ws.foldl (Pass.follow v) p) ∧ Grows p (ws.foldl (Pass.follow v) p) ∧
        ∀ w ∈ ws, super.TakesPart a w → w ∈ (ws.foldl (Pass.follow v) p).worklist.toList := by
  induction ws with
  | nil => exact fun hs _ _ => ⟨hs, Grows.refl _, by simp⟩
  | cons w ws ih =>
    intro p hs hv hvw
    obtain ⟨hs', hg, hw⟩ := hs.follow hr hv (hvw w (List.mem_cons_self ..))
    obtain ⟨hs'', hg', hws⟩ := ih hs' (hg.mem hv) fun u hu => hvw u (List.mem_cons_of_mem _ hu)
    refine ⟨hs'', hg.trans hg', fun u hu htu => ?_⟩
    rcases List.mem_cons.1 hu with rfl | hu
    · exact hg'.mem (hw htu)
    · exact hws u hu htu

theorem Searching.visitClauses (hr : Ready f a super p₀) {v : Var} (cs : List ClauseId) :
    ∀ {p : Pass}, Searching f a super p₀ seed p → v ∈ p.worklist.toList → (∀ c ∈ cs, f.Mentions c v) →
      Searching f a super p₀ seed (cs.foldl (Pass.visitClause (.ofFormula f) a v) p) ∧
        Grows p (cs.foldl (Pass.visitClause (.ofFormula f) a v) p) ∧
        ∀ c ∈ cs, p₀.clauseMark c = .unseen →
          (cs.foldl (Pass.visitClause (.ofFormula f) a v) p).clauseMark c ≠ .unseen := by
  induction cs with
  | nil => exact fun hs _ _ => ⟨hs, Grows.refl _, by simp⟩
  | cons c cs ih =>
    intro p hs hv hcv
    obtain ⟨hs', hg, hc⟩ := hs.visitClause hr hv (hcv c (List.mem_cons_self ..))
    obtain ⟨hs'', hg', hcs⟩ := ih hs' (hg.mem hv) fun d hd => hcv d (List.mem_cons_of_mem _ hd)
    refine ⟨hs'', hg.trans hg', fun d hd h0 => ?_⟩
    rcases List.mem_cons.1 hd with rfl | hd
    · exact hg'.clauseMark _ (hc h0)
    · exact hcs d hd h0

variable {p : Pass}

theorem Searching.visit (hfit : super.Within f) (hr : Ready f a super p₀) (hs : Searching f a super p₀ seed p)
    {v : Var} (hv : v ∈ p.worklist.toList) :
    Searching f a super p₀ seed (p.visit (.ofFormula f) a v) ∧ Grows p (p.visit (.ofFormula f) a v) ∧
      Visited f a super p₀ v (p.visit (.ofFormula f) a v) := by
  have hle := hfit.var_id_le v (hs.takesPart hr hv).1
  simp only [Pass.visit]
  obtain ⟨hs', hg, hn⟩ := Searching.followAll hr ((Adjacency.ofFormula f).neighboursOf v) hs hv
    fun w hw => (Adjacency.mem_neighboursOf hle).1 hw
  obtain ⟨hs'', hg', hc⟩ := Searching.visitClauses hr ((Adjacency.ofFormula f).clausesOf v) hs' (hg.mem hv)
    fun c hc => (Adjacency.mem_clausesOf hle).1 hc
  refine ⟨hs'', hg.trans hg', ⟨fun w hw htw => ?_, fun c hcv h0 => ?_⟩⟩
  · exact hg'.mem (hn w ((Adjacency.mem_neighboursOf hle).2 hw) htw)
  · exact hc c ((Adjacency.mem_clausesOf hle).2 hcv) h0

/-- The worklist holds no more variables than the formula. -/
theorem Searching.length_le (hfit : super.Within f) (hr : Ready f a super p₀) (hs : Searching f a super p₀ seed p) :
    p.worklist.toList.length ≤ f.varCount := by
  have hsub : p.worklist.toList ⊆ f.vars := fun v hv => Var.mem_firstN.2 (hfit.var_id_le v (hs.takesPart hr hv).1)
  simpa [Formula.vars] using (List.subperm_of_subset hs.nodup hsub).length_le

/-- Going on from a position before which everything is visited, the search visits the whole worklist. -/
theorem Searching.spread (hfit : super.Within f) (hr : Ready f a super p₀) :
    ∀ (fuel position : Nat) {p : Pass}, Searching f a super p₀ seed p → VisitedBefore f a super p₀ position p →
      f.varCount < fuel + position →
      Searching f a super p₀ seed (spread (.ofFormula f) a fuel position p) ∧
        Grows p (Pass.spread (.ofFormula f) a fuel position p) ∧
        ∀ v ∈ (Pass.spread (.ofFormula f) a fuel position p).worklist.toList,
          Visited f a super p₀ v (Pass.spread (.ofFormula f) a fuel position p)
  | 0, position, p, hs, hvis, hfuel => by
    -- The position is past the worklist, which has no more variables than the formula.
    have hle := hs.length_le hfit hr
    rw [Array.length_toList] at hle
    exact ⟨hs, Grows.refl p, hvis.all (by omega)⟩
  | fuel + 1, position, p, hs, hvis, hfuel => by
    rw [Pass.spread]
    rcases hp : p.worklist[position]? with _ | v
    · exact ⟨hs, Grows.refl p, hvis.all (Array.getElem?_eq_none_iff.1 hp)⟩
    · have hv : p.worklist.toList[position]? = some v := by simpa using hp
      obtain ⟨hs', hg, hvv⟩ := hs.visit hfit hr (List.mem_of_getElem? hv)
      obtain ⟨hs'', hg', hall⟩ :=
        Searching.spread hfit hr fuel (position + 1) hs' (hvis.visit hv hg hvv) (by omega)
      exact ⟨hs'', hg.trans hg', hall⟩

end

/-! ## What a search finds -/

/-- The outcome of a search from `seed`: the worklist is the connected component of the seed, and
the clauses that were unseen and mention a variable of it have their marks. -/
structure Searched (f : Formula) (a : Assignment) (super : Component) (p₀ : Pass) (seed : Var) (p : Pass) :
    Prop where
  fits : p.Fits f
  nodup : p.worklist.toList.Nodup
  mem_worklist : ∀ v, v ∈ p.worklist.toList ↔ (f.linkGraph a super).Reachable seed v
  unseen : ∀ v ∈ p.worklist.toList, p₀.varMark v = .unseen
  varMark : ∀ v, p.varMark v = if v ∈ p.worklist.toList then .seen else p₀.varMark v
  met : ∀ c, p₀.clauseMark c = .unseen → (∃ v ∈ p.worklist.toList, f.Mentions c v) →
    p.clauseMark c = f.metMark a super c
  kept : ∀ c, (p₀.clauseMark c = .unseen → ∀ v ∈ p.worklist.toList, ¬ f.Mentions c v) →
    p.clauseMark c = p₀.clauseMark c

theorem Ready.start {p₀ : Pass} (hr : Ready f a super p₀) {seed : Var} (hseed : p₀.varMark seed = .unseen) :
    Searching f a super p₀ seed (({ p₀ with worklist := #[] } : Pass).reach seed) := by
  have hlt := index_lt_of_varMark (p := p₀) (v := seed) (by rw [hseed]; simp)
  refine ⟨⟨(Table.size_set ..).trans hr.fits.vars, hr.fits.clauses, hr.fits.scores⟩, by simp, ?_, fun v => ?_,
    fun c => .inl rfl, fun c h h' => (h' h).elim⟩
  · simp only [worklist_reach, Array.toList_push, List.nil_append, List.mem_singleton]
    rintro v rfl
    exact ⟨hseed, .refl _⟩
  · rw [varMark_reach]
    simp only [worklist_reach, Array.toList_push, List.nil_append, List.mem_singleton]
    by_cases h : seed = v
    · subst h; simp [hlt]
    · rw [if_neg fun h' => h h'.1, if_neg (Ne.symm h)]; rfl

theorem Ready.search (hfit : super.Within f) {p₀ : Pass} (hr : Ready f a super p₀) {seed : Var}
    (hseed : p₀.varMark seed = .unseen) : Searched f a super p₀ seed (p₀.search (.ofFormula f) a seed) := by
  have h0 := hr.start hseed
  have hfuel : f.varCount < (({ p₀ with worklist := #[] } : Pass).reach seed).vars.size + 1 + 0 := by
    rw [h0.fits.vars]; omega
  obtain ⟨hs, hg, hall⟩ := Searching.spread hfit hr _ 0 h0 (.zero _ _) hfuel
  refine ⟨hs.fits, hs.nodup, fun v => ⟨fun hv => (hs.reachable v hv).2, fun hv => ?_⟩,
    fun v hv => (hs.reachable v hv).1, hs.varMark, fun c h0 ⟨v, hv, hcv⟩ => ?_, fun c hc => ?_⟩
  · refine Formula.reachable_closed (fun u w hu hadj => ?_) (hg.mem (by simp)) hv
    obtain ⟨-, htu, htw, hsh | ⟨c, hc, hsat, hcu, hcw⟩⟩ := hadj
    · exact (hall u hu).shares w hsh htw
    · have hunseen := hr.clause_unseen c hc hsat u hcu (hs.reachable u hu).1
      exact hs.met c hunseen ((hall u hu).mentions c hcu hunseen) hsat w hcw htw
  · exact ((hs.clauseMark c).resolve_left fun h => (hall v hv).mentions c hcv h0 (h.trans h0)).2.2
  · exact (hs.clauseMark c).resolve_right fun ⟨h1, ⟨v, hv, hcv⟩, _⟩ => hc h1 v hv hcv

end Pass

end ModelCount
