/-
Asking a level for its next component again. Whether the super-component was split is told from the
stack alone, so when all that a pass finds is isolated or answered by the cache, the level looks as if
it was never split: the next question splits it again and multiplies the same numbers in once more.
-/
import ModelCount.Proofs.Engine.Entries
import ModelCount.Proofs.Level
import ModelCount.Proofs.Pass.Agree

namespace ModelCount

/-! ## Counts that the cache answers with -/

namespace Cache

/-- The count that the cache answers a component with, given the view of it. -/
def countFor? (c : Cache) (view : Component) : Option Nat :=
  match PackedKey.encode c.scheme view with
  | .ok key => (c.lookup key).1
  | .error _ => none

/-- The caches answer every lookup in the same way. -/
structure SameAnswers (c c' : Cache) : Prop where
  scheme : c'.scheme = c.scheme
  caching : c'.caching = c.caching
  slots : c'.slots = c.slots
  buckets : c'.buckets = c.buckets

theorem SameAnswers.refl (c : Cache) : c.SameAnswers c := ⟨rfl, rfl, rfl, rfl⟩

theorem SameAnswers.trans {c c' c'' : Cache} (h : c.SameAnswers c') (h' : c'.SameAnswers c'') : c.SameAnswers c'' :=
  ⟨h'.scheme.trans h.scheme, h'.caching.trans h.caching, h'.slots.trans h.slots, h'.buckets.trans h.buckets⟩

theorem sameAnswers_lookup (c : Cache) (key : PackedKey) : c.SameAnswers (c.lookup key).2 := by
  unfold lookup
  split <;> exact ⟨rfl, rfl, rfl, rfl⟩

theorem SameAnswers.lookup_fst {c c' : Cache} (h : c.SameAnswers c') (key : PackedKey) :
    (c'.lookup key).1 = (c.lookup key).1 := by
  have hfind : c'.find? key = c.find? key := by
    simp only [find?, bucket, h.buckets, entry?_congr h.slots]
  unfold lookup
  rw [h.caching, hfind]
  split <;> rfl

theorem SameAnswers.countFor? {c c' : Cache} (h : c.SameAnswers c') (view : Component) :
    c'.countFor? view = c.countFor? view := by
  simp only [Cache.countFor?, h.scheme, h.lookup_fst]

/-- The cache answers the components with these counts. -/
abbrev Answers (c : Cache) (fds : List Found) (counts : List Nat) : Prop :=
  List.Forall₂ (fun fd n => c.countFor? fd.view = some n) fds counts

theorem SameAnswers.answers {c c' : Cache} (h : c.SameAnswers c') {fds : List Found} {counts : List Nat} :
    c'.Answers fds counts ↔ c.Answers fds counts := by
  simp only [Answers, h.countFor?]

end Cache

namespace Engine

variable {f : Formula} {e e' : Engine} {level level' : Level}

/-! ## Answered components -/

/-- A component is answered with its count in the cache, or it is pushed. -/
theorem register_eq_ok {parent : Option Slot} {fd : Found} (h : register parent (e, level) fd = .ok (e', level')) :
    (∃ n, e.cache.countFor? fd.view = some n ∧ level' = level.times n ∧ e' = { e with cache := e'.cache } ∧
      e.cache.SameAnswers e'.cache) ∨
    e'.stack.size = e.stack.size + 1 := by
  simp only [register, bind_eq_ok] at h
  obtain ⟨key, hkey, h⟩ := h
  have hsame := e.cache.sameAnswers_lookup key
  rcases hl : e.cache.lookup key with ⟨_ | n, cache⟩ <;> simp only [Cache.answer, hl] at h
  · right
    split at h <;>
    · cases h
      exact List.length_append
  · left
    cases h
    rw [hl] at hsame
    exact ⟨n, by simp only [Cache.countFor?, hkey, hl], rfl, rfl, hsame⟩

theorem register_of_countFor? (parent : Option Slot) {fd : Found} {n : Nat}
    (h : e.cache.countFor? fd.view = some n) (level : Level) :
    ∃ cache, register parent (e, level) fd = .ok ({ e with cache }, level.times n) ∧ e.cache.SameAnswers cache := by
  unfold Cache.countFor? at h
  split at h
  · rename_i key hkey
    have hsame := e.cache.sameAnswers_lookup key
    refine ⟨(e.cache.lookup key).2, ?_, hsame⟩
    rcases hl : e.cache.lookup key with ⟨_ | m, cache⟩ <;> rw [hl] at h
    · cases h
    · cases h
      simp only [register, hkey, Cache.answer, hl, bind, Except.bind, pure, Except.pure]
  · cases h

/-- When nothing was pushed, all components were answered. -/
theorem answers_of_registerAll {parent : Option Slot} : ∀ (fds : List Found) {e e' : Engine} {level level' : Level},
    fds.foldlM (register parent) (e, level) = .ok (e', level') → e.stack.size ≤ e'.stack.size ∧
      (e'.stack.size ≤ e.stack.size → ∃ counts, e.cache.Answers fds counts ∧ level' = counts.foldl Level.times level ∧
        e' = { e with cache := e'.cache } ∧ e.cache.SameAnswers e'.cache)
  | [], e, e', level, level', h => by
    cases h
    exact ⟨Nat.le_refl _, fun _ => ⟨[], .nil, rfl, rfl, .refl _⟩⟩
  | fd :: fds, e, e', level, level', h => by
    rw [List.foldlM_cons, bind_eq_ok] at h
    obtain ⟨⟨e₁, level₁⟩, hfd, h⟩ := h
    obtain ⟨hle, hall⟩ := answers_of_registerAll fds h
    rcases register_eq_ok hfd with ⟨n, hn, rfl, he₁, hsame⟩ | hpush
    · have hsize : e₁.stack.size = e.stack.size := by rw [he₁]
      refine ⟨hsize ▸ hle, fun hno => ?_⟩
      obtain ⟨counts, hcounts, rfl, he', hsame'⟩ := hall (hsize ▸ hno)
      refine ⟨n :: counts, .cons hn (hsame.answers.1 hcounts), rfl, ?_,
        hsame.trans hsame'⟩
      rw [he', he₁]
    · exact ⟨by omega, fun hno => by omega⟩

theorem registerAll_of_answers (parent : Option Slot) {fds : List Found} {counts : List Nat} :
    ∀ {e : Engine} (level : Level), e.cache.Answers fds counts →
      ∃ cache, fds.foldlM (register parent) (e, level) = .ok ({ e with cache }, counts.foldl Level.times level) := by
  induction fds generalizing counts with
  | nil =>
    intro e level h
    cases h
    exact ⟨e.cache, rfl⟩
  | cons fd fds ih =>
    intro e level h
    obtain ⟨n, counts, hn, hcounts, rfl⟩ := List.forall₂_cons_left_iff.1 h
    obtain ⟨cache, hfd, hsame⟩ := register_of_countFor? parent hn level
    obtain ⟨cache', hfold⟩ := ih (e := { e with cache }) (level.times n)
      (hsame.answers.2 hcounts)
    refine ⟨cache', ?_⟩
    rw [List.foldlM_cons, hfd]
    exact hfold

/-! ## Decompositions that push nothing -/

/-- What a pass over a component multiplies into a level when the cache answers all that it finds. -/
def factor (e : Engine) (super : Component) (counts : List Nat) : Nat :=
  2 ^ (e.passOver super).isolated.length * counts.prod

theorem times_decomposed (e : Engine) (super : Component) (counts : List Nat) (level : Level) (n size : Nat) :
    Level.times ((counts.foldl Level.times
      ((e.passOver super).isolated.foldl (fun l _ => l.noteSearch false) level)).setEnd size) n =
      (level.times (e.factor super counts * n)).setEnd size := by
  have hcounts := Level.times_timesAll (fun m => m) n counts
    ((e.passOver super).isolated.foldl (fun l _ => l.noteSearch false) level)
  have hisolated := Level.times_timesAll (fun _ : Var => 2) (counts.prod * n) (e.passOver super).isolated level
  rw [List.map_id'] at hcounts
  rw [List.map_const', List.prod_replicate] at hisolated
  rw [Level.times_setEnd, factor, Nat.mul_assoc]
  exact congrArg (Level.setEnd · size) (hcounts.trans hisolated)

/-- A decomposition after which the stack is not larger found nothing that the cache did not answer. -/
theorem answers_of_decompose {super : Component} (hsuper : e.superComponent level = .ok super)
    (hd : e.decompose level = .ok (e', level')) (hsize : e'.stack.size ≤ e.stack.size) :
    ∃ counts, e.cache.Answers (e.passOver super).found counts ∧
      (∀ n, level'.times n = (level.times (e.factor super counts * n)).setEnd e.stack.size) ∧
      e' = { e with pass := (e.passOver super).pass, cache := e'.cache } ∧ e.cache.SameAnswers e'.cache := by
  simp only [decompose, bind_eq_ok, mapError_eq_ok] at hd
  obtain ⟨super', hsuper', ⟨e₁, level₁⟩, hfold, hd⟩ := hd
  obtain rfl : super = super' := Except.ok.inj (hsuper.symm.trans hsuper')
  cases hd
  have hsize₁ : e₁.stack.size ≤ e.stack.size := (size_sortFrom e₁.stack e₁.order e.stack.size).symm.le.trans hsize
  obtain ⟨counts, hcounts, rfl, he₁, hsame⟩ := (answers_of_registerAll _ hfold).2 hsize₁
  have hstack : e₁.stack = e.stack := by rw [he₁]
  refine ⟨counts, hcounts, fun n => ?_, ?_, hsame⟩
  · rw [times_decomposed, hstack]
  · rw [hstack, sortFrom_size, he₁]

theorem decompose_of_answers {super : Component} (hsuper : e.superComponent level = .ok super) {counts : List Nat}
    (h : e.cache.Answers (e.passOver super).found counts) :
    ∃ cache level', e.decompose level = .ok ({ e with pass := (e.passOver super).pass, cache }, level') ∧
      ∀ n, level'.times n = (level.times (e.factor super counts * n)).setEnd e.stack.size := by
  obtain ⟨cache, hfold⟩ := registerAll_of_answers super.entry (e := { e with pass := (e.passOver super).pass })
    ((e.passOver super).isolated.foldl (fun l _ => l.noteSearch false) level) h
  refine ⟨cache, _, ?_, fun n => times_decomposed e super counts level n e.stack.size⟩
  simp only [decompose, hsuper, bind, Except.bind, hfold, Except.mapError, pure, Except.pure, sortFrom_size]

/-- A pass from the state that a pass over the component left finds the same. -/
theorem Alive.passOver_again (h : e.Alive f) {super : Component} (hsuper : super ∈ e.stack.items) (cache : Cache) :
    (passOver { e with pass := (e.passOver super).pass, cache } super).isolated = (e.passOver super).isolated ∧
      (passOver { e with pass := (e.passOver super).pass, cache } super).found = (e.passOver super).found := by
  have hfits := (h.loaded.passOver_decomposes (h.within hsuper)).fits
  obtain ⟨hisolated, hfound, -⟩ := Pass.split_agree e.adjacency e.assignment super
    (hfits.vars.trans h.loaded.pass.vars.symm) (hfits.clauses.trans h.loaded.pass.clauses.symm)
    (hfits.scores.trans h.loaded.pass.scores.symm)
  exact ⟨hisolated, hfound⟩

/-- A decomposition after which the stack is not larger can be made again, with the same outcome. -/
theorem Alive.decompose_again (h : e.Alive f) {super : Component} (hsuper : e.superComponent level = .ok super)
    (hd : e.decompose level = .ok (e', level')) (hsize : e'.stack.size ≤ e.stack.size) :
    ∃ counts, e.cache.Answers (e.passOver super).found counts ∧ e'.stack = e.stack ∧
      (∀ n, level'.times n = (level.times (e.factor super counts * n)).setEnd e.stack.size) ∧
      ∀ l : Level, l.superIndex = level.superIndex → ∃ e'' l', e'.decompose l = .ok (e'', l') ∧ e''.stack = e.stack ∧
        ∀ n, l'.times n = (l.times (e.factor super counts * n)).setEnd e.stack.size := by
  obtain ⟨counts, hcounts, hlevel', he', hsame⟩ := answers_of_decompose hsuper hd hsize
  have hstack : e'.stack = e.stack := by rw [he']
  obtain ⟨hisolated, hfound⟩ := h.passOver_again (superComponent_eq_ok hsuper) e'.cache
  rw [← he'] at hisolated hfound
  have hcounts' : e'.cache.Answers (e'.passOver super).found counts :=
    hfound ▸ hsame.answers.2 hcounts
  refine ⟨counts, hcounts, hstack, hlevel', fun l hl => ?_⟩
  have hsuper' : e'.superComponent l = .ok super := by
    rw [superComponent, hl, component_iff, hstack, ← component_iff, ← superComponent, hsuper]
  obtain ⟨cache, l', hd', hl'⟩ := decompose_of_answers hsuper' hcounts'
  refine ⟨_, l', hd', hstack, fun n => ?_⟩
  rw [hl', hstack, factor, hisolated, ← factor]

/-! ## The next question -/

/-- The answer `false` leaves the components of the level as they are. The components were split before,
or else they are split now and nothing is pushed. -/
theorem nextComponent_eq_false (h : e.nextComponent level = .ok (false, e', level')) :
    ∃ super, e.superComponent level = .ok super ∧
      ((level.offset < e.stack.size ∧ level.hasUnprocessed = false ∧ e' = e ∧ level' = level.times 1) ∨
        (e.stack.size ≤ level.offset ∧ ∃ level₁, e.decompose level = .ok (e', level₁) ∧
          level₁.hasUnprocessed = false ∧ level' = level₁.times 1)) := by
  obtain ⟨super, hsuper, -⟩ := bind_eq_ok.1 h
  obtain ⟨level₁, hfound, rfl, ⟨hlt, rfl, rfl⟩ | ⟨hle, hd⟩⟩ := nextComponent_cases h
  · exact ⟨super, hsuper, .inl ⟨hlt, hfound.symm, rfl, rfl⟩⟩
  · exact ⟨super, hsuper, .inr ⟨hle, level₁, hd, hfound.symm, rfl⟩⟩

/-- The level goes on, and the components above its offset are to be processed. -/
theorem decompose_continues (h : e.Alive f) (hd : e.decompose level = .ok (e', level')) :
    level.Continues level' ∧ level'.unprocessedEnd = e'.stack.size := by
  obtain ⟨super, kept, hits, -, hdec⟩ := h.decomposed hd
  have hisolated := Level.continues_timesAll (fun _ => 2) (e.passOver super).isolated level
  have hhits := Level.continues_timesAll Prod.snd hits
    ((e.passOver super).isolated.foldl (fun l _ => l.times 2) level)
  rw [hdec.level]
  exact ⟨(hisolated.trans hhits).trans (Level.continues_setEnd ..), rfl⟩

/-- A level that answered `false` answers `false` again, and the stack stays. When components of the
level are on the stack, nothing else changes either. When none are, the super-component is split once
more, and what its isolated variables and answered components count is multiplied in again; so the
total is the same only if this is one or the branch is unsatisfiable. -/
theorem nextComponent_again (he : e.Reachable) (hoffset : level.offset ≤ e.stack.size)
    (h : e.nextComponent level = .ok (false, e', level')) :
    ∃ super k e'', e.superComponent level = .ok super ∧
      e'.nextComponent level' = .ok (false, e'', level'.times k) ∧
      e'.stack = e.stack ∧ e''.stack = e.stack ∧
      (level'.times k).foundUnsat = level'.foundUnsat ∧
      ((level'.times k).total = level'.total ↔ level'.foundUnsat = true ∨ k = 1) ∧
      (level.offset < e.stack.size → k = 1 ∧ e'' = e') ∧
      (level.offset = e.stack.size → ∃ counts, e.cache.Answers (e.passOver super).found counts ∧
        k = 2 ^ (e.passOver super).isolated.length * counts.prod) := by
  obtain ⟨f, hf⟩ := he.paired
  obtain ⟨super, hsuper, ⟨hlt, hno, rfl, rfl⟩ | ⟨hle, level₁, hd, hno, rfl⟩⟩ := nextComponent_eq_false h
  · -- The components of the level lie on the stack, and all of them were processed.
    have hcont := Level.continues_times level 1
    have hsuper' : e'.superComponent (level.times 1) = .ok super := by
      rw [superComponent, hcont.superIndex, ← superComponent, hsuper]
    have hagain := nextComponent_of_above hsuper' (hcont.offset ▸ hlt)
    rw [Level.hasUnprocessed_times, hno] at hagain
    obtain ⟨hunsat, htotal⟩ := Level.times_total_iff (l := level.times 1) rfl fun h => (Nat.one_ne_zero h).elim
    exact ⟨super, 1, e', hsuper, hagain, rfl, rfl, hunsat, htotal, fun _ => ⟨rfl, rfl⟩,
      fun heq => (Nat.ne_of_lt hlt heq).elim⟩
  · -- The component was split and nothing was pushed, so it is split again.
    obtain ⟨hcont, hend⟩ := decompose_continues hf.toAlive hd
    have hsize : e'.stack.size ≤ e.stack.size := by
      simp only [Level.hasUnprocessed, hcont.offset, hend, decide_eq_false_iff_not, Nat.not_lt] at hno
      exact hno.trans hoffset
    obtain ⟨counts, hcounts, hstack, hlevel₁, hagain⟩ := hf.toAlive.decompose_again hsuper hd hsize
    have hcont₁ := hcont.trans (Level.continues_times level₁ 1)
    obtain ⟨e'', level₂, hd₂, hstack₂, hlevel₂⟩ := hagain (level₁.times 1) hcont₁.superIndex
    have hsuper' : e'.superComponent (level₁.times 1) = .ok super := by
      rw [superComponent, hcont₁.superIndex, component_iff, hstack, ← component_iff, ← superComponent, hsuper]
    obtain ⟨f', hf'⟩ := (Reachable.call he (.decompose hd)).paired
    obtain ⟨hcont₂, hend₂⟩ := decompose_continues hf'.toAlive hd₂
    have hno₂ : level₂.hasUnprocessed = false := by
      simp [Level.hasUnprocessed, (hcont₁.trans hcont₂).offset, hend₂, hstack₂, Nat.not_lt.2 hle]
    have hnext := nextComponent_of_below hsuper' (hcont₁.offset ▸ hstack ▸ hle) hd₂
    rw [hno₂] at hnext
    have hlevel : level₂.times 1 = (level₁.times 1).times (e.factor super counts) := by
      rw [hlevel₂, hlevel₁, Nat.mul_one, Level.times_setEnd]
      rfl
    obtain ⟨hunsat, htotal⟩ := Level.times_total_iff (l := level₁.times 1) (n := e.factor super counts) rfl fun hzero => by
      rw [hlevel₁, hzero, Level.foundUnsat, Level.active_setEnd, Level.active_times, Branch.unsat_times]
      simp
    exact ⟨super, e.factor super counts, e'', hsuper, hlevel ▸ hnext, hstack, hstack₂, hunsat, htotal,
      fun hlt => (Nat.not_le.2 hlt hle).elim, fun _ => ⟨counts, hcounts, rfl⟩⟩

end Engine

/-- One variable and no clause. -/
def Cnf.lone : Cnf := .ofClauses [] 1

/-- The variable is isolated, so the first answer counts two models and the second one four. -/
theorem Engine.nextComponent_lone :
    ∃ (e e' e'' : Engine) (level' level'' : Level), Engine.new.load (.ofCnf .lone) = .ok e ∧ e.stack.size = 1 ∧
      e.nextComponent (.new 0 1) = .ok (false, e', level') ∧ level'.total = 2 ∧
      e'.nextComponent level' = .ok (false, e'', level'') ∧ level''.total = 4 := by
  have hcalls : (do
      let e ← Engine.new.load (.ofCnf .lone)
      let first ← e.nextComponent (.new 0 1)
      let second ← first.2.1.nextComponent first.2.2
      return (e.stack.size, first.1, first.2.2.total, second.1, second.2.2.total)) =
      (.ok (1, false, 2, false, 4) : Except EngineError _) := by decide +kernel
  simp only [bind_eq_ok] at hcalls
  obtain ⟨e, hload, ⟨found, e', level'⟩, hfirst, ⟨found', e'', level''⟩, hsecond, h⟩ := hcalls
  injection h with h
  simp only [Prod.mk.injEq] at h
  obtain ⟨hsize, rfl, htotal, rfl, htotal'⟩ := h
  exact ⟨e, e', e'', level', level'', hload, hsize, hfirst, htotal, hsecond, htotal'⟩

theorem Engine.nextComponent_again_lone :
    ∃ (e e' : Engine) (level' : Level), Engine.new.load (.ofCnf .lone) = .ok e ∧ e.stack.size = 1 ∧
      e.nextComponent (.new 0 1) = .ok (false, e', level') ∧ level'.total = 2 ∧
      ∃ super k e'', e.superComponent (.new 0 1) = .ok super ∧
        e'.nextComponent level' = .ok (false, e'', level'.times k) ∧ (level'.times k).total = 4 ∧
        k ≠ 1 ∧ e''.stack = e.stack := by
  obtain ⟨e, e', e'', level', level'', hload, hsize, hfirst, htotal, hsecond, htotal'⟩ := Engine.nextComponent_lone
  obtain ⟨super, k, e₂, hsuper, hagain, -, hstack, -, hiff, -⟩ :=
    nextComponent_again (.load (.new .stable) hload) (Nat.le_of_eq hsize.symm) hfirst
  rw [hsecond, Except.ok.injEq] at hagain
  simp only [Prod.mk.injEq, true_and] at hagain
  obtain ⟨rfl, rfl⟩ := hagain
  refine ⟨e, e', level', hload, hsize, hfirst, htotal, super, k, e'', hsuper, hsecond, htotal', fun hk => ?_, hstack⟩
  have hsame := hiff.2 (.inr hk)
  rw [htotal, htotal'] at hsame
  cases hsame

/-- A level that answered `false` does not always keep its total when it is asked again. -/
theorem Engine.not_forall_nextComponent_keeps :
    ¬ ∀ (e e' : Engine) (level level' : Level), e.Reachable → level.offset = e.stack.size →
      e.nextComponent level = .ok (false, e', level') →
      ∃ e'' level'', e'.nextComponent level' = .ok (false, e'', level'') ∧ level''.total = level'.total ∧
        level''.foundUnsat = level'.foundUnsat ∧ e''.stack = e'.stack := by
  intro hall
  obtain ⟨e, e', e'', level', level'', hload, hsize, hfirst, htotal, hsecond, htotal'⟩ := Engine.nextComponent_lone
  obtain ⟨e₂, level₂, hagain, hsame, -⟩ :=
    hall e e' (.new 0 1) level' (.load (.new .stable) hload) hsize.symm hfirst
  rw [hsecond, Except.ok.injEq] at hagain
  simp only [Prod.mk.injEq, true_and] at hagain
  obtain ⟨-, rfl⟩ := hagain
  rw [htotal, htotal'] at hsame
  cases hsame

end ModelCount
