/-
The components of a level. A level that begins at the top of the stack hands out what its pass pushed,
one component for each question and the smallest first, whatever happens in between: variables may be
assigned and counts stored, and levels nested in it, to any depth, may push components of their own, as
long as they are released again.
-/
import ModelCount.Proofs.Engine.Repeat

namespace ModelCount

namespace Engine

variable {f : Formula} {e e' : Engine} {level level' : Level}

/-! ## What a question does to the stack -/

theorem decompose_pushes (he : e.Reachable) (h : e.decompose level = .ok (e', level')) :
    level'.offset = level.offset ∧ ∃ block, e'.stack.items = e.stack.items ++ block := by
  obtain ⟨f, hf⟩ := he.paired
  obtain ⟨super, kept, hits, -, hd⟩ := hf.toAlive.decomposed h
  obtain ⟨block, hitems, -⟩ := hd.stack
  exact ⟨(decompose_continues hf.toAlive h).1.offset, block, hitems⟩

theorem nextComponent_pushes (he : e.Reachable) {found : Bool} (h : e.nextComponent level = .ok (found, e', level')) :
    level'.offset = level.offset ∧ ∃ block, e'.stack.items = e.stack.items ++ block := by
  obtain ⟨level₁, -, rfl, ⟨-, rfl, rfl⟩ | ⟨-, hd⟩⟩ := nextComponent_cases h
  · refine ⟨?_, [], (List.append_nil _).symm⟩
    split
    · rfl
    · exact (Level.continues_times level₁ 1).offset
  · obtain ⟨hoffset, hblock⟩ := decompose_pushes he hd
    refine ⟨?_, hblock⟩
    split
    · exact hoffset
    · exact (Level.continues_times level₁ 1).offset.trans hoffset

/-! ## Between two questions -/

/-- A call that leaves the stack as it is. -/
inductive Quiet : Engine → Engine → Prop
  | configure (e : Engine) (u : ConfigUpdate) : Quiet e (e.configure u)
  | assign {e e' : Engine} {l : Lit} (h : e.assign l = .ok e') : Quiet e e'
  | unassign {e e' : Engine} {v : Var} (h : e.unassign v = .ok e') : Quiet e e'
  | beginPass {e e' : Engine} {level : Level} (h : e.beginPass level = .ok e') : Quiet e e'
  | storeCount {e e' : Engine} {index n : Nat} (h : e.storeCount index n = .ok e') : Quiet e e'

theorem Quiet.call (h : Quiet e e') : Call e e' := by
  cases h with
  | configure u => exact .configure e u
  | assign h => exact .assign h
  | unassign h => exact .unassign h
  | beginPass h => exact .beginPass h
  | storeCount h => exact .storeCount h

theorem Quiet.stack_eq (h : Quiet e e') : e'.stack = e.stack := by
  cases h with
  | configure u => rfl
  | assign h => rw [assign_eq_ok h]
  | unassign h => rw [unassign_eq_ok h]
  | beginPass h =>
    obtain ⟨super, -, h⟩ := bind_eq_ok.1 h
    cases h
    rfl
  | storeCount h =>
    rcases storeCount_eq_ok h with rfl | ⟨c, s, -, -, rfl⟩
    · rfl
    · rfl

/-- One step of well-nested calls, with the levels that are open, the innermost first. A level is opened at
the top of the stack. Questions go to the innermost level, which may count and move on in any way as long
as it keeps its place, and is released before the level around it goes on. -/
inductive Nested : Engine × List Level → Engine × List Level → Prop
  | quiet {e e' : Engine} {levels : List Level} (h : Quiet e e') : Nested (e, levels) (e', levels)
  | enter {e : Engine} {levels : List Level} {level : Level} (h : level.offset = e.stack.size) :
      Nested (e, levels) (e, level :: levels)
  | ask {e e' : Engine} {levels : List Level} {level level' : Level} {found : Bool}
      (h : e.nextComponent level = .ok (found, e', level')) : Nested (e, level :: levels) (e', level' :: levels)
  | decompose {e e' : Engine} {levels : List Level} {level level' : Level}
      (h : e.decompose level = .ok (e', level')) : Nested (e, level :: levels) (e', level' :: levels)
  | adjust {e : Engine} {levels : List Level} {level level' : Level} (h : level'.offset = level.offset) :
      Nested (e, level :: levels) (e, level' :: levels)
  | release {e : Engine} {levels : List Level} {level : Level} : Nested (e, level :: levels) (e.release level, levels)

/-- What may happen between two questions to a level: every level that is opened is released again. -/
def Interlude (e e' : Engine) : Prop := Relation.ReflTransGen Nested (e, []) (e', [])

/-- The open levels lie on the stack one above the other, the outermost on `base`. -/
def Stacked (base : List Component) : List Component → List Level → Prop
  | items, [] => items = base
  | items, level :: levels => level.offset ≤ items.length ∧ Stacked base (items.take level.offset) levels

/-- Components that are pushed belong to the innermost level. -/
theorem Stacked.append {base items : List Component} {levels : List Level} (h : Stacked base items (level :: levels))
    (hoffset : level'.offset = level.offset) (block : List Component) :
    Stacked base (items ++ block) (level' :: levels) := by
  obtain ⟨hle, h⟩ := h
  refine ⟨?_, ?_⟩
  · rw [hoffset, List.length_append]
    exact hle.trans (Nat.le_add_right ..)
  · rwa [hoffset, List.take_append_of_le_length hle]

variable {s s' : Engine × List Level}

theorem Nested.reachable (h : Nested s s') (he : s.1.Reachable) : s'.1.Reachable := by
  cases h with
  | quiet h => exact he.call h.call
  | enter | adjust => exact he
  | ask h => exact he.call (.nextComponent h)
  | decompose h => exact he.call (.decompose h)
  | release => exact he.call (.release ..)

theorem Nested.stacked {base : List Component} (h : Nested s s') (he : s.1.Reachable)
    (hs : Stacked base s.1.stack.items s.2) : Stacked base s'.1.stack.items s'.2 := by
  cases h with
  | quiet h => rwa [h.stack_eq]
  | enter h =>
    refine ⟨h.le, ?_⟩
    rwa [h, ComponentStack.size, List.take_length]
  | ask h =>
    obtain ⟨hoffset, block, hitems⟩ := nextComponent_pushes he h
    dsimp only
    rw [hitems]
    exact hs.append hoffset block
  | decompose h =>
    obtain ⟨hoffset, block, hitems⟩ := decompose_pushes he h
    dsimp only
    rw [hitems]
    exact hs.append hoffset block
  | adjust h => simpa using hs.append h []
  | release => exact hs.2

theorem Nested.run {base : List Component} (h : Relation.ReflTransGen Nested s s') (he : s.1.Reachable)
    (hs : Stacked base s.1.stack.items s.2) : s'.1.Reachable ∧ Stacked base s'.1.stack.items s'.2 := by
  induction h with
  | refl => exact ⟨he, hs⟩
  | tail _ hstep ih => exact ⟨hstep.reachable ih.1, hstep.stacked ih.1 ih.2⟩

/-- An interlude leaves the stack as it was. -/
theorem Interlude.spec (h : Interlude e e') (he : e.Reachable) : e'.Reachable ∧ e'.stack.items = e.stack.items :=
  Nested.run h he rfl

/-! ## Serving a level -/

/-- The components that a level handed out since it began in the state `e₀`. Each of them is what was
current after the answer `true`, and an interlude later, in which the level counted something, the level
moved on. -/
inductive Serves (e₀ : Engine) (level₀ : Level) : List Component → Engine → Level → Prop
  | start : Serves e₀ level₀ [] e₀ level₀
  | next {handed : List Component} {e e₁ e₂ : Engine} {level level₁ level₂ : Level} {c : Component}
      (serves : Serves e₀ level₀ handed e level) (ask : e.nextComponent level = .ok (true, e₁, level₁))
      (current : e₁.currentComponent level₁ = .ok c) (interlude : Interlude e₁ e₂)
      (superIndex : level₂.superIndex = level₁.superIndex) (offset : level₂.offset = level₁.offset)
      (unprocessedEnd : level₂.unprocessedEnd = level₁.unprocessedEnd) :
      Serves e₀ level₀ (handed ++ [c]) e₂ level₂.next

/-- The components `block` of a level lie on `base`, and those that were not handed out are to be processed. -/
structure Waits (superIndex : Nat) (base block handed : List Component) (e : Engine) (level : Level) : Prop where
  reachable : e.Reachable
  items : e.stack.items = base ++ block
  superIndex : level.superIndex = superIndex
  offset : level.offset = base.length
  unprocessedEnd : level.unprocessedEnd = base.length + (block.length - handed.length)
  handed : handed <+: block.reverse

section

variable {superIndex : Nat} {base block handed : List Component}

theorem Waits.hasUnprocessed_iff (h : Waits superIndex base block handed e level) :
    level.hasUnprocessed = true ↔ handed.length < block.length := by
  rw [Level.hasUnprocessed, h.offset, h.unprocessedEnd, decide_eq_true_eq]
  omega

/-- When nothing is left to be processed, all components were handed out. -/
theorem Waits.finished_iff (h : Waits superIndex base block handed e level) :
    level.hasUnprocessed = false ↔ handed = block.reverse := by
  have hlength : block.reverse.length = block.length := List.length_reverse
  rw [← Bool.not_eq_true, h.hasUnprocessed_iff, ← hlength]
  constructor
  · intro hle
    exact h.handed.eq_of_length_le (Nat.le_of_not_lt hle)
  · rintro rfl
    exact Nat.lt_irrefl _

/-- The component to be processed is the next one of the block from its top. -/
theorem Waits.current (h : Waits superIndex base block handed e level) (hun : level.hasUnprocessed = true) :
    ∃ c, e.currentComponent level = .ok c ∧ handed ++ [c] <+: block.reverse := by
  have hlt := h.hasUnprocessed_iff.1 hun
  have hrev : handed.length < block.reverse.length := by rwa [List.length_reverse]
  refine ⟨block.reverse[handed.length], ?_, ?_⟩
  · have hposition : level.current = base.length + (block.length - 1 - handed.length) := by
      rw [Level.current, h.unprocessedEnd]
      omega
    rw [currentComponent, if_pos hun, component_iff, h.items, hposition,
      List.getElem?_append_right (Nat.le_add_right ..), Nat.add_sub_cancel_left, List.getElem_reverse,
      List.getElem?_eq_getElem]
  · have htake := List.prefix_iff_eq_take.1 h.handed
    rw [List.prefix_iff_eq_take, List.length_append, List.length_singleton, List.take_succ_eq_append_getElem hrev,
      ← htake]

/-- Handing out a component, with an interlude before the level moves on. -/
theorem Waits.next (h : Waits superIndex base block handed e level) {c : Component} {level₂ : Level}
    (hun : level.hasUnprocessed = true) (hcurrent : e.currentComponent level = .ok c) (hinterlude : Interlude e e')
    (hsuper : level₂.superIndex = level.superIndex) (hoffset : level₂.offset = level.offset)
    (hend : level₂.unprocessedEnd = level.unprocessedEnd) :
    Waits superIndex base block (handed ++ [c]) e' level₂.next := by
  obtain ⟨d, hd, hhanded⟩ := h.current hun
  obtain rfl : c = d := Except.ok.inj (hcurrent.symm.trans hd)
  obtain ⟨hreach, hitems⟩ := hinterlude.spec h.reachable
  refine ⟨hreach, hitems.trans h.items, hsuper.trans h.superIndex, hoffset.trans h.offset, ?_, hhanded⟩
  have hlt := h.hasUnprocessed_iff.1 hun
  show level₂.unprocessedEnd - 1 = _
  rw [hend, h.unprocessedEnd, List.length_append, List.length_singleton]
  omega

theorem Waits.release (h : Waits superIndex base block handed e level) : (e.release level).stack = ⟨base⟩ := by
  show (⟨e.stack.items.take level.offset⟩ : ComponentStack) = ⟨base⟩
  rw [h.items, h.offset, List.take_left]

/-- A question to a level that components wait for changes nothing. -/
theorem Waits.ask (h : Waits superIndex base block handed e level) (hlt : superIndex < base.length)
    (hblock : block ≠ []) :
    e.nextComponent level = .ok (if level.hasUnprocessed then (true, e, level) else (false, e, level.times 1)) := by
  have hlength : 0 < block.length := List.length_pos_of_ne_nil hblock
  have hsuper : ∃ super, e.superComponent level = .ok super := by
    refine ⟨base[superIndex], ?_⟩
    rw [superComponent, h.superIndex, component_iff, h.items, List.getElem?_append_left hlt,
      List.getElem?_eq_getElem hlt]
  obtain ⟨super, hsuper⟩ := hsuper
  refine nextComponent_of_above hsuper ?_
  rw [h.offset, ComponentStack.size, h.items, List.length_append]
  omega

end

variable {e₀ : Engine} {level₀ : Level}

/-- The first question splits the super-component; after it the components wait to be handed out. Released
at any time, the level leaves the stack on which it began. -/
theorem Serves.asked {e₁ : Engine} {level₁ : Level} {block handed : List Component}
    (hd : e₀.decompose level₀ = .ok (e₁, level₁))
    (hwaits : Waits level₀.superIndex e₀.stack.items block [] e₁ level₁) (hoffset : level₀.offset = e₀.stack.size)
    (hlt : level₀.superIndex < e₀.stack.items.length) (h : Serves e₀ level₀ handed e level) :
    (e.release level).stack = e₀.stack ∧ ∃ e' level', e.nextComponent level =
        .ok (if level'.hasUnprocessed then (true, e', level') else (false, e', level'.times 1)) ∧
      Waits level₀.superIndex e₀.stack.items block handed e' level' := by
  induction h with
  | start =>
    obtain ⟨super, hsuper, -⟩ := bind_eq_ok.1 hd
    refine ⟨?_, e₁, level₁, nextComponent_of_below hsuper hoffset.ge hd, hwaits⟩
    show (⟨e₀.stack.items.take level₀.offset⟩ : ComponentStack) = e₀.stack
    rw [hoffset, ComponentStack.size, List.take_length]
  | next _ ask current interlude superIndex offset unprocessedEnd ih =>
    obtain ⟨-, e', level', hask, hw⟩ := ih
    rw [ask] at hask
    split at hask
    · rename_i hun
      simp only [Except.ok.injEq, Prod.mk.injEq, true_and] at hask
      obtain ⟨rfl, rfl⟩ := hask
      have hw' := hw.next hun current interlude superIndex offset unprocessedEnd
      refine ⟨hw'.release, _, _, hw'.ask hlt ?_, hw'⟩
      rintro rfl
      exact absurd (hw.hasUnprocessed_iff.1 hun) (Nat.not_lt_zero _)
    · simp at hask

/-- No component is pushed twice. -/
theorem Decomposed.block_nodup (he : e.Loaded f) {super : Component} (hfit : super.Within f)
    {kept : List (Found × Option Slot)} {hits : List (Found × Nat)} (hd : Decomposed e level super kept hits e' level')
    {block : List Component} (hperm : block.Perm (kept.map fun k => { k.1.component with entry := k.2 })) :
    block.Nodup := by
  have hs := he.passOver_decomposes hfit
  have hdisjoint : (kept.map Prod.fst ++ hits.map Prod.fst).Pairwise
      fun fd fd' => fd.component.vars.Disjoint fd'.component.vars :=
    (hd.perm.pairwise_iff fun h => h.symm).2 (hs.found_disjoint hfit)
  have hkept := List.pairwise_map.1 (List.pairwise_append.1 hdisjoint).1
  refine hperm.nodup_iff.2 (List.pairwise_map.2 (hkept.imp_of_mem fun {k k'} hk _ hdis heq => ?_))
  -- Two components that are disjoint and equal have no variables, but a component found has two at least.
  have hmem : k.1 ∈ (e.passOver super).found :=
    hd.perm.mem_iff.1 (List.mem_append_left _ (List.mem_map_of_mem hk))
  obtain ⟨v, hv⟩ := List.exists_mem_of_length_pos (Nat.lt_of_lt_of_le Nat.zero_lt_two (hs.found k.1 hmem).two_le)
  exact hdis hv ((congrArg Component.vars heq) ▸ hv)

/-- A level hands out each of its components exactly once, smallest first. The level begins at the top of
the stack and its first question splits the super-component, which pushes `block`. However the level was
served since, the components that it handed out are those at the top of the block, each as it was pushed.
The next question is answered `true` with the next component of the block as the current one, or `false`
if there is none. Releasing the level, before the question or after it, leaves the stack as it was. -/
theorem level_hands_out_block (he : e₀.Reachable) {super : Component} (hsuper : e₀.superComponent level₀ = .ok super)
    (hoffset : level₀.offset = e₀.stack.size) :
    ∃ e₁ level₁ kept hits block, e₀.decompose level₀ = .ok (e₁, level₁) ∧
      Decomposed e₀ level₀ super kept hits e₁ level₁ ∧
      e₁.stack.items = e₀.stack.items ++ block ∧
      block.Perm (kept.map fun k => { k.1.component with entry := k.2 }) ∧ block.Nodup ∧
      block.reverse.Pairwise (fun c d => c.varCount ≤ d.varCount) ∧
      ∀ handed e level, Serves e₀ level₀ handed e level →
        handed <+: block.reverse ∧ (e.release level).stack = e₀.stack ∧
        ∃ found e' level', e.nextComponent level = .ok (found, e', level') ∧
          e'.stack.items = e₀.stack.items ++ block ∧
          (found = true → ∃ c, e'.currentComponent level' = .ok c ∧ handed ++ [c] <+: block.reverse) ∧
          (found = false ↔ handed = block.reverse) ∧
          (e'.release level').stack = e₀.stack := by
  obtain ⟨f, hf⟩ := he.paired
  have hmem := superComponent_eq_ok hsuper
  have hfit := hf.toAlive.within hmem
  obtain ⟨e₁, level₁, kept, hits, hok, hd⟩ := decompose_isOk hf.loaded hsuper hfit
  obtain ⟨block, hitems, hperm, hsorted⟩ := hd.stack
  obtain ⟨hcontinues, hend⟩ := decompose_continues hf.toAlive hok
  have hwaits : Waits level₀.superIndex e₀.stack.items block [] e₁ level₁ := by
    refine ⟨he.call (.decompose hok), hitems, hcontinues.superIndex, hcontinues.offset.trans hoffset, ?_,
      List.nil_prefix⟩
    rw [hend, ComponentStack.size, hitems, List.length_append]
    rfl
  have hlt : level₀.superIndex < e₀.stack.items.length :=
    (List.getElem?_eq_some_iff.1 (component_iff.1 hsuper)).1
  refine ⟨e₁, level₁, kept, hits, block, hok, hd, hitems, hperm, hd.block_nodup hf.loaded hfit hperm,
    List.pairwise_reverse.2 hsorted, fun handed e level hserves => ?_⟩
  obtain ⟨hrelease, e', level', hask, hw⟩ := hserves.asked hok hwaits hoffset hlt
  have hfinished := hw.finished_iff
  refine ⟨hw.handed, hrelease, ?_⟩
  cases hun : level'.hasUnprocessed with
  | true =>
    rw [hun] at hask hfinished
    exact ⟨true, e', level', hask, hw.items, fun _ => hw.current hun, hfinished, hw.release⟩
  | false =>
    rw [hun] at hask hfinished
    refine ⟨false, e', level'.times 1, hask, hw.items, fun h => (Bool.false_ne_true h).elim, hfinished, ?_⟩
    show (⟨e'.stack.items.take (level'.times 1).offset⟩ : ComponentStack) = e₀.stack
    rw [(Level.continues_times level' 1).offset]
    exact hw.release

/-- Both components of the root level are handed out. Before it moves on to the second one, a level that is
nested in it pushes a component of its own and is released. -/
theorem level_hands_out_block_twoParts :
    ∃ (e₀ e e' : Engine) (level level' : Level) (c d : Component),
      Engine.new.load (.ofCnf .twoParts) = .ok e₀ ∧ Serves e₀ (.new 0 1) [c, d] e level ∧
      c.varCount = 2 ∧ d.varCount = 4 ∧
      e.nextComponent level = .ok (false, e', level') ∧ e'.stack.items = e₀.stack.items ++ [d, c] ∧
      (e'.release level').stack = e₀.stack := by
  have hcalls : (do
      let e₀ ← Engine.new.load (.ofCnf .twoParts)
      let q ← e₀.nextComponent (.new 0 1)
      let c ← q.2.1.currentComponent q.2.2
      let e₁ ← q.2.1.assign ⟨⟨3, by decide⟩, false⟩
      let n ← e₁.nextComponent (.new 1 3)
      let e₂ ← (n.2.1.release n.2.2).unassign ⟨3, by decide⟩
      let r ← e₂.nextComponent (q.2.2.times 3).next
      let d ← r.2.1.currentComponent r.2.2
      let s ← r.2.1.nextComponent r.2.2.next
      return ((q.1, c.varCount, e₁.stack.size), (n.1, n.2.1.stack.size), (r.1, d.varCount), s.1)) =
        (.ok ((true, 2, 3), (true, 4), (true, 4), false) : Except EngineError _) := by decide +kernel
  simp only [bind_eq_ok] at hcalls
  obtain ⟨e₀, hload, ⟨b₁, e₁, level₁⟩, hask₁, c, hc, e₂, hassign, ⟨b₃, e₃, level₃⟩, hnested, e₄, hunassign,
    ⟨b₅, e₅, level₅⟩, hask₅, d, hd, ⟨b₆, e₆, level₆⟩, hask₆, h⟩ := hcalls
  injection h with h
  simp only [Prod.mk.injEq] at h
  obtain ⟨⟨rfl, hcsize, hsize⟩, ⟨rfl, -⟩, ⟨rfl, hdsize⟩, rfl⟩ := h
  have hreach : e₀.Reachable := .load (.new .stable) hload
  obtain ⟨super, hsuper, -⟩ := load_superComponent hload
  obtain ⟨-, -, -, entry, hitems, -⟩ := load_eq_ok hload
  have hoffset : (Level.new 0 1).offset = e₀.stack.size := by
    rw [ComponentStack.size, hitems]
    rfl
  -- Between the two questions, the component below the current one is split under an assignment.
  have hinterlude : Interlude e₁ e₄ :=
    .tail (.tail (.tail (.tail (.single (.quiet (.assign hassign))) (.enter hsize.symm)) (.ask hnested)) .release)
      (.quiet (.unassign hunassign))
  have hcounted := level₁.continues_times 3
  have hserves : Serves e₀ (.new 0 1) [c, d] e₅ level₅.next :=
    .next (.next .start hask₁ hc hinterlude hcounted.superIndex hcounted.offset (level₁.unprocessedEnd_times 3))
      hask₅ hd .refl rfl rfl rfl
  obtain ⟨-, -, -, -, block, -, -, -, -, -, -, hall⟩ := level_hands_out_block hreach hsuper hoffset
  obtain ⟨-, -, found, e', level', hask, hitems', -, hfinished, hrelease⟩ := hall _ _ _ hserves
  obtain ⟨rfl, rfl, rfl⟩ : found = false ∧ e' = e₆ ∧ level' = level₆ := by
    rw [hask₆] at hask
    simpa [eq_comm] using hask
  have hblock : block = [d, c] := by
    rw [← List.reverse_inj, ← hfinished.1 rfl]
    rfl
  exact ⟨e₀, e₅, e', level₅.next, level', c, d, hload, hserves, hcsize, hdsize, hask₆, hblock ▸ hitems', hrelease⟩

end Engine

end ModelCount
