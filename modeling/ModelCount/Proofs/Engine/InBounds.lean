/-
No operation of a loaded engine goes beyond a table, a row, a slot, a word or the stack. While the formula is
one whose ids and links fit their words, every checked operation has the outcome of the plain one, and the
cache keeps listing slots that exist.
-/
import ModelCount.Proofs.Engine.Checked
import ModelCount.Proofs.Engine.Live
import ModelCount.Proofs.Pass.InBounds

namespace ModelCount

/-- A formula whose ids and links fit their words. -/
structure Formula.Accepted (f : Formula) : Prop where
  varCount_le : f.varCount ≤ Var.maxId
  build_isOk : ∃ adj, Adjacency.build f = .ok adj

/-! ## Loading -/

namespace Rows

variable {α : Type} {count : Nat} {entries : List (Nat × α)}

theorem countEntries?_eq (h : ∀ e ∈ entries, e.1 < count) :
    countEntries? count entries = some (countEntries count entries) := by
  refine (foldlM_eq_some (fun t : Table Nat => t.size = count) entries (fun e he t ht => ⟨?_, ?_⟩) _
    (Table.size_replicate ..)).1
  · have hi : e.1 < t.size := ht ▸ h e he
    rw [Table.get?_eq hi, Option.bind_eq_bind, Option.bind_some, Table.set?_eq hi, Table.modify]
  · exact (Table.size_modify ..).trans ht

theorem Filled.place?_eq {rows : List (List α)} {done : List (Nat × α)} {s : Table Nat × Table α}
    (h : Filled rows done s) {i : Nat} {x : α} (hi : i < rows.length)
    (hroom : (entriesOf done i).length < rows[i].length) : place? s (i, x) = some (Rows.place s (i, x)) := by
  have hindex : i < s.1.size := h.positions ▸ hi
  simp only [place?, Table.get?_eq hindex, Table.set?_eq hindex, Table.set?_eq (h.position_lt hi hroom),
    Option.bind_eq_bind, Option.bind_some]
  rfl

/-- Every entry has a place in its row, so none is written beyond the pool. -/
theorem Filled.foldlM_place?_eq (hentries : ∀ e ∈ entries, e.1 < count) :
    ∀ (rest done : List (Nat × α)) (s : Table Nat × Table α), done ++ rest = entries →
      Filled (rowsOf count entries) done s → rest.foldlM place? s = some (rest.foldl Rows.place s)
  | [], _, _, _, _ => rfl
  | (i, x) :: rest, done, s, hsplit, h => by
    obtain ⟨hfit, hi, hroom⟩ := room_of_split hentries hsplit
    rw [List.foldlM_cons, h.place?_eq hi hroom]
    exact foldlM_place?_eq hentries rest (done ++ [(i, x)]) _ (by simpa using hsplit) (h.place hfit hi hroom)

theorem ofEntries?_eq (h : ∀ e ∈ entries, e.1 < count) (fill : α) :
    ofEntries? count fill entries = some (ofEntries count fill entries) := by
  simp only [ofEntries?, countEntries?_eq h, end_countEntries, Option.bind_eq_bind, Option.bind_some,
    Filled.foldlM_place?_eq h entries [] _ rfl (filled_nil count entries fill)]
  rw [ofEntries, List.getD_eq_getElem?_getD, end_countEntries]
  rfl

end Rows

theorem Adjacency.ofFormula?_eq (f : Formula) : ofFormula? f = some (ofFormula f) := by
  have htwo : (f.longs.all fun lits => 2 ≤ lits.length) = true := by
    simp only [List.all_eq_true, decide_eq_true_eq]
    intro lits hlits
    have hthree := f.three_le lits hlits
    omega
  simp only [ofFormula?, Rows.ofEntries?_eq fun _ => lt_of_mem_occurrenceEntries, Option.bind_eq_bind, Option.bind_some]
  rw [← Option.bind_eq_bind, guard_bind htwo]
  rfl

theorem Adjacency.build?_eq (f : Formula) : (build? f).run = some (build f) :=
  Checked.run_bind_lift fun _ _ => Checked.run_bind_lift fun _ _ => Checked.run_bind_lift fun _ _ =>
    Checked.run_bind_lift fun _ _ => Checked.run_read (ofFormula?_eq f)

/-! ## The assignment -/

namespace Assignment

variable {a : Assignment}

theorem index_lt_of_require {v : Var} (h : a.require v = .ok ()) : v.index < a.values.size := by
  unfold require at h
  split at h
  · assumption
  · cases h

/-- Behind the check of a variable, its cell is there. -/
theorem run_require {α : Type} {v : Var} {x? : Option α} {x : α} (h : v.index < a.values.size → x? = some x) :
    ((liftM (a.require v) : Checked OutOfRange Unit) >>= fun _ => (liftM x? : Checked OutOfRange α)).run =
      some (a.require v >>= fun _ => pure x) :=
  Checked.run_bind_lift fun _ hv => Checked.run_read (h (index_lt_of_require hv))

theorem assign?_eq (a : Assignment) (l : Lit) : (a.assign? l).run = some (a.assign l) :=
  run_require fun h => congrArg (Option.map Assignment.mk) (Table.set?_eq h _)

theorem unassign?_eq (a : Assignment) (v : Var) : (a.unassign? v).run = some (a.unassign v) :=
  run_require fun h => congrArg (Option.map Assignment.mk) (Table.set?_eq h _)

theorem value?_eq (a : Assignment) (l : Lit) : (a.value? l).run = some (a.value l) :=
  run_require fun h => congrArg (Option.map (Option.map l.holds)) (Table.get?_eq h)

end Assignment

namespace Engine

variable {f : Formula} {e e' : Engine} {level level' : Level}

theorem assign?_eq (e : Engine) (l : Lit) : (e.assign? l).run = some (e.assign l) :=
  Checked.run_bind (Checked.run_adapt (e.assignment.assign?_eq l) _) fun _ _ => rfl

theorem unassign?_eq (e : Engine) (v : Var) : (e.unassign? v).run = some (e.unassign v) :=
  Checked.run_bind (Checked.run_adapt (e.assignment.unassign?_eq v) _) fun _ _ => rfl

theorem value?_eq (e : Engine) (l : Lit) : (e.value? l).run = some (e.value l) :=
  Checked.run_adapt (e.assignment.value?_eq l) _

theorem configure?_eq (e : Engine) (u : ConfigUpdate) : e.configure? u = some (e.configure u) := by
  simp only [configure?, Cache.setLimits?_eq, Option.bind_eq_bind, Option.bind_some]
  rfl

theorem release?_eq (e : Engine) (level : Level) : e.release? level = some (e.release level) := by
  have hslots := foldlM_eq_some (fun _ => True) ((e.stack.items.drop level.offset).filterMap Component.entry)
    (fun s _ c _ => ⟨Cache.release?_eq c s, trivial⟩) e.cache trivial
  simp only [release?, ComponentStack.drain, hslots.1, Option.bind_eq_bind, Option.bind_some]
  rfl

theorem load?_eq (e : Engine) (f : Formula) : (e.load? f).run = some (e.load f) := by
  refine Checked.run_bind (Checked.run_adapt (Adjacency.build?_eq f) _) fun adjacency _ => ?_
  refine Checked.run_bind_lift fun scheme _ => ?_
  refine Checked.run_bind (Checked.run_adapt (PackedKey.encode?_eq scheme _) _) fun key _ => ?_
  by_cases hcaching : e.config.caching = true
  · simp only [if_pos hcaching]
    rw [Checked.run_bind_read ((Cache.wf_new scheme e.config).store?_eq key none)]
    rfl
  · simp only [if_neg hcaching]
    rfl

theorem Loaded.score?_eq (he : e.Loaded f) (v : Var) : (e.score? v).run = some (e.score v) := by
  refine Checked.run_bind_lift fun _ h => Checked.run_read ?_
  have hindex : v.index < e.assignment.values.size := Assignment.index_lt_of_require (mapError_eq_ok.1 h)
  refine Table.get?_eq ?_
  rw [he.pass.scores, ← he.assignment]
  exact hindex

theorem Alive.beginPass?_eq (h : e.Alive f) (level : Level) : (e.beginPass? level).run = some (e.beginPass level) := by
  refine Checked.run_bind_lift fun super hsuper => ?_
  exact Checked.run_bind_read
    (Pass.begin?_eq (h.within (superComponent_eq_ok hsuper)) h.loaded.assignment h.loaded.pass) _

/-! ## Decompositions -/

section

variable {parent : Option Slot} {fd : Found}

theorem register?_eq (h : e.cache.InRange) (parent : Option Slot) (level : Level) (fd : Found) :
    (register? parent (e, level) fd).run = some (register parent (e, level) fd) := by
  refine Checked.run_bind (PackedKey.encode?_eq ..) fun key _ => ?_
  refine (Checked.run_bind_read (h.answer?_eq level key) _).trans ?_
  have hlookup := h.lookup key
  rcases hl : e.cache.lookup key with ⟨_ | n, cache⟩ <;> simp only [Cache.answer, hl] at hlookup ⊢
  · by_cases hcaching : cache.caching = true
    · simp only [if_pos hcaching]
      rw [Checked.run_bind_read (hlookup.toWF.store?_eq key parent)]
      rfl
    · simp only [if_neg hcaching]
      rfl
  · rfl

theorem register_inRange (h : e.cache.InRange) (hr : register parent (e, level) fd = .ok (e', level')) :
    e'.cache.InRange ∧ e.stack.size ≤ e'.stack.size := by
  simp only [register, bind_eq_ok] at hr
  obtain ⟨key, -, hr⟩ := hr
  have hlookup := h.lookup key
  rcases hl : e.cache.lookup key with ⟨_ | n, cache⟩ <;> simp only [Cache.answer, hl] at hr hlookup
  · split at hr <;> cases hr
    · exact ⟨hlookup.store key parent, by simp [ComponentStack.size, ComponentStack.push]⟩
    · exact ⟨hlookup, by simp [ComponentStack.size, ComponentStack.push]⟩
  · cases hr
    exact ⟨hlookup, Nat.le_refl _⟩

theorem registerAll?_eq (parent : Option Slot) : ∀ (fds : List Found) {e : Engine} (level : Level), e.cache.InRange →
    (fds.foldlM (register? parent) (e, level)).run = some (fds.foldlM (register parent) (e, level))
  | [], _, _, _ => rfl
  | fd :: fds, e, level, h => by
    simp only [List.foldlM_cons]
    refine Checked.run_bind (register?_eq h parent level fd) fun s hr => ?_
    exact registerAll?_eq parent fds s.2 (register_inRange h hr).1

theorem registerAll_inRange : ∀ (fds : List Found) {e : Engine} {level : Level}, e.cache.InRange →
    fds.foldlM (register parent) (e, level) = .ok (e', level') →
    e'.cache.InRange ∧ e.stack.size ≤ e'.stack.size
  | [], _, _, h, hr => by
    cases hr
    exact ⟨h, Nat.le_refl _⟩
  | fd :: fds, e, level, h, hr => by
    rw [List.foldlM_cons, bind_eq_ok] at hr
    obtain ⟨⟨e₁, level₁⟩, hfirst, hr⟩ := hr
    obtain ⟨h₁, hsize₁⟩ := register_inRange h hfirst
    obtain ⟨h₂, hsize₂⟩ := registerAll_inRange fds h₁ hr
    exact ⟨h₂, hsize₁.trans hsize₂⟩

end

theorem Alive.decompose?_eq (h : e.Alive f) (hf : f.Accepted) (hcache : e.cache.InRange) (level : Level) :
    (e.decompose? level).run = some (e.decompose level) := by
  refine Checked.run_bind_lift fun super hsuper => ?_
  have hfit := h.within (superComponent_eq_ok hsuper)
  obtain ⟨adj, hbuild⟩ := hf.build_isOk
  have hsplit : e.pass.split? e.adjacency e.assignment super = some (e.passOver super) := by
    rw [passOver, h.loaded.adjacency]
    exact Pass.split?_eq hfit h.loaded.assignment (Formula.scores_fit hbuild hf.varCount_le) h.loaded.pass
  refine (Checked.run_bind_read hsplit _).trans ?_
  have hregister := registerAll?_eq super.entry (e.passOver super).found
    (e := { e with pass := (e.passOver super).pass })
    ((e.passOver super).isolated.foldl (fun l _ => l.noteSearch false) level) hcache
  refine Checked.run_bind (Checked.run_adapt hregister _) fun s hr => ?_
  have hsize := (registerAll_inRange (e := { e with pass := (e.passOver super).pass }) _ hcache (mapError_eq_ok.1 hr)).2
  exact Checked.run_bind_read (if_pos hsize) _

theorem decompose_inRange (hcache : e.cache.InRange) (hd : e.decompose level = .ok (e', level')) :
    e'.cache.InRange := by
  simp only [decompose, bind_eq_ok, mapError_eq_ok] at hd
  obtain ⟨super, -, ⟨e₁, level₁⟩, hfold, hd⟩ := hd
  have h₁ := (registerAll_inRange (e := { e with pass := (e.passOver super).pass }) _ hcache hfold).1
  cases hd
  exact h₁

theorem Alive.nextComponent?_eq (h : e.Alive f) (hf : f.Accepted) (hcache : e.cache.InRange) (level : Level) :
    (e.nextComponent? level).run = some (e.nextComponent level) := by
  refine Checked.run_bind_lift fun super _ => ?_
  by_cases hsize : e.stack.size ≤ level.offset
  · simp only [if_pos hsize]
    refine Checked.run_bind (h.decompose?_eq hf hcache level) fun s _ => ?_
    split <;> rfl
  · simp only [if_neg hsize]
    refine Checked.run_bind rfl fun s _ => ?_
    split <;> rfl

end Engine

end ModelCount
