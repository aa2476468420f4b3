/-
What a decomposition does with the components of its pass. A component is answered by the cache or
pushed, with a new entry if caching is on; nothing is lost and nothing is done twice, and a pass over
a loaded formula never fails to pack what it found.
-/
import ModelCount.Engine.Decomposition
import ModelCount.Proofs.Cache
import ModelCount.Proofs.Packing
import ModelCount.Proofs.Pass.Split

namespace ModelCount

namespace Engine

/-- The formula is loaded: the tables have its sizes, and the keys are made with its scheme. -/
structure Loaded (e : Engine) (f : Formula) : Prop where
  adjacency : e.adjacency = .ofFormula f
  assignment : e.assignment.varCount = f.varCount
  pass : e.pass.Fits f
  scheme : PackingScheme.ofMax f.varCount f.longs.length = .ok e.cache.scheme

theorem Loaded.setStack {e : Engine} {f : Formula} (h : e.Loaded f) (stack : ComponentStack) :
    Loaded { e with stack } f := ⟨h.adjacency, h.assignment, h.pass, h.scheme⟩

theorem Loaded.setPass {e : Engine} {f : Formula} (h : e.Loaded f) {pass : Pass} (hfits : pass.Fits f) :
    Loaded { e with pass } f := ⟨h.adjacency, h.assignment, hfits, h.scheme⟩

theorem Loaded.setCache {e : Engine} {f : Formula} (h : e.Loaded f) {cache : Cache}
    (hscheme : cache.scheme = e.cache.scheme) : Loaded { e with cache } f :=
  ⟨h.adjacency, h.assignment, h.pass, hscheme ▸ h.scheme⟩

theorem Loaded.setAssignment {e : Engine} {f : Formula} (h : e.Loaded f) {a : Assignment}
    (ha : a.varCount = e.assignment.varCount) : Loaded { e with assignment := a } f :=
  ⟨h.adjacency, ha.trans h.assignment, h.pass, h.scheme⟩

/-- An engine with the formula under an assignment, and nothing on the stack. -/
def bare (f : Formula) (scheme : PackingScheme) (a : Assignment) : Engine where
  adjacency := .ofFormula f
  assignment := a
  pass := .ofCounts f.varCount f.longs.length
  cache := .new scheme {}

theorem loaded_bare {f : Formula} {scheme : PackingScheme} {a : Assignment} (ha : a.varCount = f.varCount)
    (hs : PackingScheme.ofMax f.varCount f.longs.length = .ok scheme) : (bare f scheme a).Loaded f :=
  ⟨rfl, ha, ⟨Table.size_replicate .., Table.size_replicate .., Table.size_replicate ..⟩, hs⟩

/-! ## Loading -/

/-- The component that the whole formula is. -/
def root (f : Formula) : Component := { vars := f.vars, clauses := f.clauseIds }

theorem within_root (f : Formula) : (root f).Within f :=
  ⟨fun _ hv => Var.mem_firstN.1 hv, fun _ hk => hk, Var.nodup_firstN _, ClauseId.nodup_firstN _⟩

/-- A key of anything within the formula can be made. -/
theorem Loaded.encode_isOk {e : Engine} {f : Formula} (he : e.Loaded f) {c : Component} (hc : c.Within f) :
    ∃ k, PackedKey.encode e.cache.scheme c = .ok k :=
  PackedKey.encode_isOk he.scheme hc.var_id_le (fun k hk => ClauseId.mem_firstN.1 (hc.clause_mem k hk)) hc.nodup_vars
    hc.nodup_clauses

theorem build_eq_ok {f : Formula} {adj : Adjacency} (h : Adjacency.build f = .ok adj) : adj = .ofFormula f :=
  (Adjacency.build_eq_ok_iff.1 h).2.symm

theorem mapError_eq_ok {ε ε' α : Type} {x : Except ε α} {g : ε → ε'} {a : α} :
    x.mapError g = .ok a ↔ x = .ok a := by
  cases x <;> simp [Except.mapError]

/-- A loaded formula has its root component on the stack, alone and with an entry if caching is on. No
other entry is stored, and nothing is solved yet. -/
theorem load_eq_ok {e₀ e : Engine} {f : Formula} (h : e₀.load f = .ok e) :
    e.Loaded f ∧ e.assignment = .empty f.varCount ∧ e.cache.WF ∧
      ∃ entry, e.stack.items = [{ root f with entry }] ∧
        (∀ s, entry = some s → ∃ en, e.cache.entry? s = some en ∧ en.deletable = false ∧
          PackedKey.encode e.cache.scheme (root f) = .ok en.key) ∧
        ∀ s en, e.cache.entry? s = some en → entry = some s ∧ en.count = none := by
  simp only [load, bind_eq_ok, mapError_eq_ok] at h
  obtain ⟨adj, hadj, scheme, hscheme, key, hkey, h⟩ := h
  obtain rfl := build_eq_ok hadj
  simp only [Adjacency.varCount_ofFormula, Adjacency.clauseCount_ofFormula, Adjacency.vars_ofFormula,
    Adjacency.clauseIds_ofFormula] at hscheme hkey h
  have hnew : ∀ s, Cache.entry? (Cache.new scheme e₀.config) s = none := by
    rintro (_ | s)
    · rfl
    · exact Cache.entry?_of_size_le (Nat.le_add_left ..)
  have hfits : (Pass.ofCounts f.varCount f.longs.length).Fits f :=
    ⟨Table.size_replicate .., Table.size_replicate .., Table.size_replicate ..⟩
  by_cases hcaching : e₀.config.caching = true
  · simp only [hcaching, if_true] at h
    cases h
    have hs := Cache.store_stores (Cache.new scheme e₀.config) key none
    have hwf := Cache.wf_new scheme e₀.config
    obtain ⟨en, hen, rfl, hcount, hdel⟩ := hs.stored hwf
    refine ⟨⟨rfl, Assignment.varCount_empty _, hfits, hs.scheme ▸ hscheme⟩, rfl, hs.wf hwf, _, rfl, fun s he => ?_,
      fun s en' hen' => ?_⟩
    · cases he
      exact ⟨en, hen, hdel, hs.scheme ▸ hkey⟩
    · rcases hs.origin s en' hen' with rfl | hold
      · rw [hen] at hen'
        cases hen'
        exact ⟨rfl, hcount⟩
      · cases (hnew s).symm.trans hold
  · simp only [hcaching] at h
    cases h
    refine ⟨⟨rfl, Assignment.varCount_empty _, hfits, hscheme⟩, rfl, Cache.wf_new _ _, none, rfl,
      fun _ he => (by cases he), fun s en hen => ?_⟩
    cases (hnew s).symm.trans hen

/-- A formula whose links and ids are within the limits is loaded. -/
theorem load_isOk (e₀ : Engine) {f : Formula} (hlong : f.longLiteralCount ≤ Adjacency.maxLinks)
    (hbinary : 2 * f.binaries.length ≤ Adjacency.maxLinks) (hvar : f.varCount ≤ Var.maxId)
    (hids : bitLength (f.varCount + f.longs.length) ≤ wordBits) :
    ∃ e, e₀.load f = .ok e := by
  have hbuild := Adjacency.build_eq_ok_iff.2 ⟨⟨hlong, hbinary, hvar⟩, rfl⟩
  obtain ⟨scheme, hscheme⟩ : ∃ s, PackingScheme.ofMax f.varCount f.longs.length = .ok s := by
    rw [PackingScheme.ofMax, dif_pos hids]
    exact ⟨_, rfl⟩
  obtain ⟨key, hkey⟩ := PackedKey.encode_isOk hscheme (within_root f).var_id_le
    (fun k hk => ClauseId.mem_firstN.1 ((within_root f).clause_mem k hk)) (within_root f).nodup_vars
    (within_root f).nodup_clauses
  have hroot : PackedKey.encode scheme { vars := f.vars, clauses := f.clauseIds } = .ok key := hkey
  simp only [load, bind_eq_ok, mapError_eq_ok]
  exact ⟨_, _, hbuild, scheme, by simpa using hscheme, key, by simpa using hroot, rfl⟩

/-- The root component of a formula that was just loaded. -/
theorem load_superComponent {e₀ e : Engine} {f : Formula} (h : e₀.load f = .ok e) :
    ∃ super, e.superComponent (.new 0 1) = .ok super ∧ super.Within f := by
  obtain ⟨-, -, -, entry, hitems, -⟩ := load_eq_ok h
  refine ⟨{ root f with entry }, ?_, (within_root f).of_sublist (.refl _) (.refl _)⟩
  simp [superComponent, component, ComponentStack.isEmpty, live, ComponentStack.get?, hitems, Level.new]

/-! ## One component -/

/-- The cases for a component that was found: its count is multiplied in, or it is pushed with a new
entry, or it is pushed without one. -/
theorem register_cases (parent : Option Slot) {e : Engine} (level : Level) {fd : Found} {key : PackedKey}
    (hkey : PackedKey.encode e.cache.scheme fd.view = .ok key) :
    (∃ n cache, e.cache.find? key = some n ∧ cache.slots = e.cache.slots ∧ cache.free = e.cache.free ∧
      cache.scheme = e.cache.scheme ∧ register parent (e, level) fd = .ok ({ e with cache }, level.times n)) ∨
    (∃ slot cache, e.cache.Stores key slot cache ∧
      register parent (e, level) fd =
        .ok ({ e with cache, stack := e.stack.push { fd.component with entry := some slot } }, level)) ∨
    ∃ cache : Cache, cache.slots = e.cache.slots ∧ cache.free = e.cache.free ∧ cache.scheme = e.cache.scheme ∧
      register parent (e, level) fd = .ok ({ e with cache, stack := e.stack.push fd.component }, level) := by
  obtain ⟨hslots, hfree, hscheme, -, hfind⟩ := e.cache.lookup_keeps key
  rcases hl : e.cache.lookup key with ⟨_ | n, cache⟩
  · simp only [hl] at hslots hfree hscheme
    have hanswer : e.cache.answer level key = (false, level, cache) := by simp only [Cache.answer, hl]
    by_cases hcache : cache.caching = true
    · have hs := cache.store_stores key parent
      have he := Cache.entry?_congr hslots
      refine .inr (.inl ⟨(cache.store key parent).1, (cache.store key parent).2, ⟨hs.scheme.trans hscheme,
        fun h => hs.wf (h.congr hslots hfree), fun h => (he _).symm.trans (hs.fresh (h.congr hslots hfree)),
        fun h => hs.stored (h.congr hslots hfree), fun t en n ht hn => (he t).symm.trans (hs.solved t en n ht hn),
        fun t en ht hen hts => hs.keeps t en ((he t).trans ht) hen hts,
        fun t en ht => (hs.origin t en ht).imp_right (he t).symm.trans⟩, ?_⟩)
      simp only [register, hkey, hanswer, hcache, if_true, bind, Except.bind, pure, Except.pure]
    · refine .inr (.inr ⟨cache, hslots, hfree, hscheme, ?_⟩)
      simp only [register, hkey, hanswer, hcache, Bool.false_eq_true, if_false, bind, Except.bind, pure, Except.pure]
  · simp only [hl] at hslots hfree hscheme hfind
    have hanswer : e.cache.answer level key = (true, level.times n, cache) := by simp only [Cache.answer, hl]
    refine .inl ⟨n, cache, hfind n rfl, hslots, hfree, hscheme, ?_⟩
    simp only [register, hkey, hanswer, bind, Except.bind, pure, Except.pure]

/-! ## All components -/

/-- What became of the components `fds`: some were kept, on the stack, and the others answered with a
count of the cache. -/
structure Registered (e : Engine) (level : Level) (fds : List Found) (kept : List (Found × Option Slot))
    (hits : List (Found × Nat)) (e' : Engine) (level' : Level) : Prop where
  perm : (kept.map Prod.fst ++ hits.map Prod.fst).Perm fds
  stack : e'.stack.items = e.stack.items ++ kept.map fun k => { k.1.component with entry := k.2 }
  answered : ∀ h ∈ hits, ∃ s en, e.cache.entry? s = some en ∧ en.count = some h.2 ∧
    PackedKey.encode e.cache.scheme h.1.view = .ok en.key
  level : level' = hits.foldl (fun l h => l.times h.2) level
  scheme : e'.cache.scheme = e.cache.scheme
  frame : e' = { e with cache := e'.cache, stack := e'.stack }

/-- The components are dealt with one after the other. -/
theorem registerAll (parent : Option Slot) : ∀ (fds : List Found) {e : Engine} (level : Level),
    (∀ fd ∈ fds, fd.component.entry = none ∧ ∃ k, PackedKey.encode e.cache.scheme fd.view = .ok k) →
    ∃ e' level' kept hits, fds.foldlM (register parent) (e, level) = .ok (e', level') ∧
      Registered e level fds kept hits e' level'
  | [], e, level, _ => ⟨e, level, [], [], rfl, ⟨.refl _, by simp, by simp, rfl, rfl, rfl⟩⟩
  | fd :: fds, e, level, h => by
    rw [List.forall_mem_cons] at h
    obtain ⟨⟨hentry, key, hkey⟩, h⟩ := h
    simp only [List.foldlM_cons, bind, Except.bind]
    rcases register_cases parent level hkey with
      ⟨n, cache, hfind, hslots, -, hscheme, hreg⟩ | ⟨slot, cache, hs, hreg⟩ | ⟨cache, hslots, -, hscheme, hreg⟩
    · rw [hreg]
      obtain ⟨e', level', kept, hits, hfold, hr⟩ := registerAll parent fds (e := { e with cache })
        (level.times n) fun fd hfd => ⟨(h fd hfd).1, hscheme ▸ (h fd hfd).2⟩
      refine ⟨e', level', kept, (fd, n) :: hits, hfold, ⟨?_, hr.stack, ?_, hr.level, hr.scheme.trans hscheme, hr.frame⟩⟩
      · exact List.perm_middle.trans (hr.perm.cons fd)
      · refine List.forall_mem_cons.2 ⟨?_, fun hit hhit => ?_⟩
        · obtain ⟨s, en, hen, rfl, hn⟩ := Cache.find?_eq_some hfind
          exact ⟨s, en, hen, hn, hkey⟩
        · obtain ⟨s, en, hen, hn, hk⟩ := hr.answered hit hhit
          exact ⟨s, en, (Cache.entry?_congr hslots s).symm.trans hen, hn, hscheme ▸ hk⟩
    · rw [hreg]
      obtain ⟨e', level', kept, hits, hfold, hr⟩ := registerAll parent fds
        (e := { e with cache, stack := e.stack.push { fd.component with entry := some slot } }) level
        fun fd hfd => ⟨(h fd hfd).1, hs.scheme ▸ (h fd hfd).2⟩
      refine ⟨e', level', (fd, some slot) :: kept, hits, hfold, ⟨hr.perm.cons fd, ?_, fun hit hhit => ?_, hr.level,
        hr.scheme.trans hs.scheme, hr.frame⟩⟩
      · rw [hr.stack]; simp [ComponentStack.push]
      · obtain ⟨s, en, hen, hn, hk⟩ := hr.answered hit hhit
        exact ⟨s, en, hs.solved s en _ hen hn, hn, hs.scheme ▸ hk⟩
    · rw [hreg]
      obtain ⟨e', level', kept, hits, hfold, hr⟩ := registerAll parent fds
        (e := { e with cache, stack := e.stack.push fd.component }) level
        fun fd hfd => ⟨(h fd hfd).1, hscheme ▸ (h fd hfd).2⟩
      refine ⟨e', level', (fd, none) :: kept, hits, hfold, ⟨hr.perm.cons fd, ?_, fun hit hhit => ?_, hr.level,
        hr.scheme.trans hscheme, hr.frame⟩⟩
      · rw [hr.stack]; simp [ComponentStack.push, ← hentry]
      · obtain ⟨s, en, hen, hn, hk⟩ := hr.answered hit hhit
        exact ⟨s, en, (Cache.entry?_congr hslots s).symm.trans hen, hn, hscheme ▸ hk⟩

/-! ## A decomposition -/

/-- What a decomposition of `super` does: the isolated variables and the answered components are
multiplied into the level, and the kept components are on the stack, the smallest on top. -/
structure Decomposed (e : Engine) (level : Level) (super : Component) (kept : List (Found × Option Slot))
    (hits : List (Found × Nat)) (e' : Engine) (level' : Level) : Prop where
  perm : (kept.map Prod.fst ++ hits.map Prod.fst).Perm (e.passOver super).found
  stack : ∃ block, e'.stack.items = e.stack.items ++ block ∧
    block.Perm (kept.map fun k => { k.1.component with entry := k.2 }) ∧
    block.Pairwise fun c d => d.varCount ≤ c.varCount
  answered : ∀ h ∈ hits, ∃ s en, e.cache.entry? s = some en ∧ en.count = some h.2 ∧
    PackedKey.encode e.cache.scheme h.1.view = .ok en.key
  level : level' = (hits.foldl (fun l h => l.times h.2)
    ((e.passOver super).isolated.foldl (fun l _ => l.times 2) level)).setEnd e'.stack.size
  scheme : e'.cache.scheme = e.cache.scheme
  frame : e' = { e with pass := (e.passOver super).pass, cache := e'.cache, stack := e'.stack }

variable {e : Engine} {f : Formula}

theorem Loaded.passOver_decomposes (he : e.Loaded f) {super : Component} (hfit : super.Within f) :
    (e.passOver super).Decomposes f e.assignment super := by
  rw [passOver, he.adjacency]
  exact Pass.split_decomposes hfit he.pass

theorem within_of_splits {fd : Found} {a : Assignment} {super : Component} (hfit : super.Within f)
    (h : fd.Splits f a super) : fd.component.Within f ∧ fd.view.Within f := by
  have hc := hfit.of_sublist h.vars_sublist h.clauses_sublist
  refine ⟨hc, ?_⟩
  rw [h.view_eq]
  exact hc.of_sublist (.refl _) List.filter_sublist

theorem size_sortFrom (s : ComponentStack) (order : BlockOrder) (start : Nat) :
    (s.sortFrom order start).size = s.size := by
  rw [ComponentStack.sortFrom, ComponentStack.size, List.length_append, (order.perm _).length_eq, ← List.length_append,
    List.take_append_drop, ComponentStack.size]

theorem sortFrom_size (s : ComponentStack) (order : BlockOrder) : s.sortFrom order s.size = s := by
  have hnil : order.arrange [] = [] := (order.perm []).eq_nil
  simp [ComponentStack.sortFrom, ComponentStack.size, hnil]

theorem decompose_isOk (he : e.Loaded f) {level : Level} {super : Component} (hsuper : e.superComponent level = .ok super)
    (hfit : super.Within f) :
    ∃ e' level' kept hits, e.decompose level = .ok (e', level') ∧ Decomposed e level super kept hits e' level' := by
  have hd := he.passOver_decomposes hfit
  obtain ⟨e', level', kept, hits, hfold, hr⟩ := registerAll super.entry (e.passOver super).found
    (e := { e with pass := (e.passOver super).pass })
    ((e.passOver super).isolated.foldl (fun l _ => l.noteSearch false) level)
    fun fd hfd => ⟨(hd.found fd hfd).entry_eq, he.encode_isOk (within_of_splits hfit (hd.found fd hfd)).2⟩
  refine ⟨{ e' with stack := e'.stack.sortFrom e.order e.stack.size }, level'.setEnd e'.stack.size, kept, hits, ?_, ?_⟩
  · have hframe := congrArg Engine.order hr.frame
    simp only [decompose, hsuper, bind, Except.bind, hfold, Except.mapError, pure, Except.pure]
    rw [show e'.order = e.order from hframe]
  · refine ⟨hr.perm, ⟨e.order.arrange (kept.map fun k => { k.1.component with entry := k.2 }), ?_, e.order.perm _,
      e.order.descending _⟩, hr.answered, ?_, hr.scheme, ?_⟩
    · simp only [ComponentStack.sortFrom, ComponentStack.size, hr.stack, List.take_left', List.drop_left']
    · show level'.setEnd e'.stack.size = _
      rw [← size_sortFrom e'.stack e.order e.stack.size, hr.level]
      rfl
    · rw [hr.frame]

/-- Without a super-component nothing is split. -/
theorem decompose_of_error {level : Level} {err : EngineError} (h : e.superComponent level = .error err) :
    e.decompose level = .error err := by
  rw [decompose, h]
  rfl

/-! ## The next component -/

/-- As long as components of the level are on the stack, none is searched for. -/
theorem nextComponent_of_above {level : Level} {super : Component} (hsuper : e.superComponent level = .ok super)
    (h : level.offset < e.stack.size) :
    e.nextComponent level =
      .ok (if level.hasUnprocessed then (true, e, level) else (false, e, level.times 1)) := by
  simp only [nextComponent, hsuper, bind, Except.bind, if_neg (Nat.not_le.2 h), pure, Except.pure]
  split <;> rfl

theorem nextComponent_of_error {level : Level} {err : EngineError} (h : e.superComponent level = .error err) :
    e.nextComponent level = .error err := by
  rw [nextComponent, h]
  rfl

theorem nextComponent_of_below {level level' : Level} {super : Component} (hsuper : e.superComponent level = .ok super)
    (h : e.stack.size ≤ level.offset) (hd : e.decompose level = .ok (e', level')) :
    e.nextComponent level =
      .ok (if level'.hasUnprocessed then (true, e', level') else (false, e', level'.times 1)) := by
  simp only [nextComponent, hsuper, bind, Except.bind, if_pos h, hd]
  split <;> rfl

/-- A question splits the super-component if no component of the level is on the stack, and does nothing
else to the engine. -/
theorem nextComponent_cases {level level' : Level} {found : Bool}
    (h : e.nextComponent level = .ok (found, e', level')) :
    ∃ level₁, found = level₁.hasUnprocessed ∧ level' = (if found then level₁ else level₁.times 1) ∧
      (level.offset < e.stack.size ∧ e' = e ∧ level₁ = level ∨
        e.stack.size ≤ level.offset ∧ e.decompose level = .ok (e', level₁)) := by
  rw [nextComponent, bind_eq_ok] at h
  obtain ⟨-, -, h⟩ := h
  split at h <;> rw [bind_eq_ok] at h <;> obtain ⟨⟨e₁, level₁⟩, hd, h⟩ := h <;> dsimp only at h
  · rename_i hle
    refine ⟨level₁, ?_⟩
    split at h <;> cases h <;> simp_all
  · rename_i hlt
    cases hd
    refine ⟨level, ?_⟩
    split at h <;> cases h <;> simp_all

/-! ## Without the cache -/

/-- While caching is off, a component that was found is pushed without an entry. -/
theorem register_of_caching_off (parent : Option Slot) (hoff : e.cache.caching = false) (level : Level) {fd : Found}
    {key : PackedKey} (hkey : PackedKey.encode e.cache.scheme fd.view = .ok key) :
    register parent (e, level) fd = .ok ({ e with stack := e.stack.push fd.component }, level) := by
  have hanswer : e.cache.answer level key = (false, level, e.cache) := by
    simp only [Cache.answer, Cache.lookup, hoff, Bool.false_eq_true, if_false]
  simp only [register, hkey, hanswer, hoff, Bool.false_eq_true, if_false, bind, Except.bind, pure, Except.pure]

theorem registerAll_of_caching_off (parent : Option Slot) : ∀ (fds : List Found) {e : Engine} (level : Level),
    e.cache.caching = false → (∀ fd ∈ fds, ∃ k, PackedKey.encode e.cache.scheme fd.view = .ok k) →
    fds.foldlM (register parent) (e, level) =
      .ok ({ e with stack := ⟨e.stack.items ++ fds.map Found.component⟩ }, level)
  | [], e, level, _, _ => by simp [pure, Except.pure]
  | fd :: fds, e, level, hoff, h => by
    rw [List.forall_mem_cons] at h
    obtain ⟨⟨key, hkey⟩, h⟩ := h
    rw [List.foldlM_cons, register_of_caching_off parent hoff level hkey]
    simp only [bind, Except.bind]
    rw [registerAll_of_caching_off parent fds (e := { e with stack := e.stack.push fd.component }) level hoff h]
    simp [ComponentStack.push]

/-- While caching is off, a decomposition pushes all that its pass finds. -/
theorem decompose_of_caching_off (he : e.Loaded f) (hoff : e.cache.caching = false) {level : Level} {super : Component}
    (hsuper : e.superComponent level = .ok super) (hfit : super.Within f) :
    e.decompose level =
      let stack : ComponentStack :=
        ⟨e.stack.items ++ e.order.arrange ((e.passOver super).found.map Found.component)⟩
      .ok ({ e with pass := (e.passOver super).pass, stack },
        ((e.passOver super).isolated.foldl (fun l _ => l.times 2) level).setEnd stack.size) := by
  have hd := he.passOver_decomposes hfit
  have hfold := registerAll_of_caching_off super.entry (e.passOver super).found
    (e := { e with pass := (e.passOver super).pass })
    ((e.passOver super).isolated.foldl (fun l _ => l.noteSearch false) level) hoff
    fun fd hfd => he.encode_isOk (within_of_splits hfit (hd.found fd hfd)).2
  simp only [decompose, hsuper, bind, Except.bind, hfold, Except.mapError, pure, Except.pure,
    ComponentStack.sortFrom, ComponentStack.size, List.take_left', List.drop_left', List.length_append,
    (e.order.perm _).length_eq]
  rfl

/-! ## What a decomposition finds -/

/-- A decomposition finds exactly the connected components of the links of two variables or more:
each of them is kept or answered, once, and every isolated variable is a factor two of the level. -/
theorem decompose_finds_connected_components (he : e.Loaded f) {level : Level} {super : Component}
    (hsuper : e.superComponent level = .ok super) (hfit : super.Within f) :
    ∃ e' level' kept hits, e.decompose level = .ok (e', level') ∧
      Decomposed e level super kept hits e' level' ∧
      (∀ S : Set Var, (∃ fd ∈ kept.map Prod.fst ++ hits.map Prod.fst, {v | v ∈ fd.component.vars} = S) ↔
        ∃ K : (f.linkGraph e.assignment super).ConnectedComponent, K.supp = S ∧ S.Nontrivial) ∧
      (∀ v, v ∈ (e.passOver super).isolated ↔ f.Isolated e.assignment super v) ∧
      (e.passOver super).isolated.Nodup ∧
      ((e.passOver super).isolated ++
        (kept.map Prod.fst ++ hits.map Prod.fst).flatMap fun fd => fd.component.vars).Perm
        (super.vars.filter e.assignment.isActive) ∧
      (kept.map Prod.fst ++ hits.map Prod.fst).Pairwise fun fd fd' => fd.component.vars.Disjoint fd'.component.vars := by
  obtain ⟨e', level', kept, hits, hok, hd⟩ := decompose_isOk he hsuper hfit
  have hs := he.passOver_decomposes hfit
  refine ⟨e', level', kept, hits, hok, hd, fun S => ?_, hs.mem_isolated, (List.nodup_append.1 (hs.nodup hfit)).1, ?_, ?_⟩
  · rw [← hs.exists_found_iff hfit S]
    simp only [hd.perm.mem_iff]
  · exact ((hd.perm.flatMap_right _).append_left _).trans hs.vars_perm
  · exact (hd.perm.pairwise_iff fun h => h.symm).2 (hs.found_disjoint hfit)

end Engine

/-- The clauses (1 or 2), (3 or 4 or 5) and (3 or not 4 or 6) over seven variables. -/
def Cnf.twoParts : Cnf :=
  let v (i : Nat) : Var := ⟨i + 1, i.succ_pos⟩
  .ofClauses [[(v 0).lit true, (v 1).lit true], [(v 2).lit true, (v 3).lit true, (v 4).lit true],
    [(v 2).lit true, (v 3).lit false, (v 5).lit true]] 7

theorem Engine.load_twoParts (e₀ : Engine) : ∃ e, e₀.load (.ofCnf .twoParts) = .ok e :=
  e₀.load_isOk (by decide) (by decide) (by decide) (by decide)

theorem Engine.decompose_finds_connected_components_twoParts :
    ∃ (e : Engine) (super : Component), Engine.new.load (.ofCnf .twoParts) = .ok e ∧
      e.superComponent (.new 0 1) = .ok super ∧ ∃ e' level' kept hits, e.decompose (.new 0 1) = .ok (e', level') ∧
        Decomposed e (.new 0 1) super kept hits e' level' ∧
        ∀ S : Set Var, (∃ fd ∈ kept.map Prod.fst ++ hits.map Prod.fst, {v | v ∈ fd.component.vars} = S) ↔
          ∃ K : ((Formula.ofCnf .twoParts).linkGraph e.assignment super).ConnectedComponent, K.supp = S ∧
            S.Nontrivial := by
  obtain ⟨e, hload⟩ := Engine.load_twoParts .new
  obtain ⟨super, hsuper, hfit⟩ := load_superComponent hload
  obtain ⟨e', level', kept, hits, hok, hd, hS, -⟩ :=
    decompose_finds_connected_components (load_eq_ok hload).1 hsuper hfit
  exact ⟨e, super, hload, hsuper, e', level', kept, hits, hok, hd, hS⟩

end ModelCount
