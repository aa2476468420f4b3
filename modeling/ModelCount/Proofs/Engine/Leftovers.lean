/-
Two engines that differ in what their last passes left behind. A decomposition goes the same way in both:
its pass sets all that it reads before it reads it, and nothing after the pass looks at its state. What is
still different afterwards are the scores of variables that take no part, which nobody touched.
-/
import ModelCount.Proofs.Engine.Decomposition
import ModelCount.Proofs.Pass.Agree
import ModelCount.Proofs.Pass.Inside

namespace ModelCount

namespace Engine

/-- The engines stand at the same point of one search: they have everything in common but the configuration and
the state of the last pass. -/
structure SharesSearch (e d : Engine) : Prop where
  order : d.order = e.order
  adjacency : d.adjacency = e.adjacency
  assignment : d.assignment = e.assignment
  cache : d.cache = e.cache
  stack : d.stack = e.stack

theorem SharesSearch.eq {e d : Engine} (h : e.SharesSearch d) : d = { e with config := d.config, pass := d.pass } := by
  obtain ⟨horder, hadjacency, hassignment, hcache, hstack⟩ := h
  rw [← horder, ← hadjacency, ← hassignment, ← hcache, ← hstack]

/-- The same outcome, in an engine with a configuration and a pass of its own. -/
def withOwn {ε : Type} (config : Config) (pass : Pass) (outcome : Except ε (Engine × Level)) : Except ε (Engine × Level) :=
  outcome.map fun s => ({ s.1 with config, pass }, s.2)

variable (config : Config) (pass : Pass)

/-- Registering a component looks at neither. -/
theorem register_withOwn (parent : Option Slot) (e : Engine) (level : Level) (fd : Found) :
    register parent ({ e with config, pass }, level) fd = withOwn config pass (register parent (e, level) fd) := by
  simp only [register]
  rcases PackedKey.encode e.cache.scheme fd.view with err | key
  · rfl
  · rcases hl : e.cache.lookup key with ⟨_ | n, cache⟩
    · by_cases hcaching : cache.caching = true <;>
        simp [Cache.answer, hl, hcaching, withOwn, bind, Except.bind, pure, Except.pure, Except.map]
    · simp [Cache.answer, hl, withOwn, bind, Except.bind, pure, Except.pure, Except.map]

theorem registerAll_withOwn (parent : Option Slot) : ∀ (fds : List Found) (e : Engine) (level : Level),
    fds.foldlM (register parent) ({ e with config, pass }, level) =
      withOwn config pass (fds.foldlM (register parent) (e, level))
  | [], _, _ => rfl
  | fd :: fds, e, level => by
    simp only [List.foldlM_cons, register_withOwn]
    rcases register parent (e, level) fd with err | ⟨e', level'⟩
    · rfl
    · exact registerAll_withOwn parent fds e' level'

/-- What a decomposition does after its pass, with what the pass found. -/
def afterPass (super : Component) (level : Level) (isolated : List Var) (found : List Found) (e : Engine) :
    Except EngineError (Engine × Level) := do
  let s ← (found.foldlM (register super.entry) (e, isolated.foldl (fun l _ => l.noteSearch false) level)).mapError .pack
  return ({ s.1 with stack := s.1.stack.sortFrom s.1.order e.stack.size }, s.2.setEnd s.1.stack.size)

theorem afterPass_withOwn (super : Component) (level : Level) (isolated : List Var) (found : List Found) (e : Engine) :
    afterPass super level isolated found { e with config, pass } =
      withOwn config pass (afterPass super level isolated found e) := by
  simp only [afterPass, registerAll_withOwn]
  rcases found.foldlM (register super.entry) (e, isolated.foldl (fun l _ => l.noteSearch false) level) with
    err | ⟨e', level'⟩ <;> rfl

/-- A decomposition is an outcome that does not depend on the state the pass starts from but through what the
pass finds, together with the state that the pass ends in. -/
theorem decompose_withOwn {e : Engine} {level : Level} {super : Component} (hsuper : e.superComponent level = .ok super) :
    let split := pass.split e.adjacency e.assignment super
    decompose { e with config, pass } level =
      withOwn config split.pass (afterPass super level split.isolated split.found e) := by
  intro split
  rw [← afterPass_withOwn, decompose, show superComponent { e with config, pass } level = .ok super from hsuper]
  rfl

/-- Nothing carries over from one pass to the next. Whatever marks, scores and worklist the last passes left,
as long as the tables have the same sizes, two engines at the same point of a search decompose alike: both
refuse for the same reason, or they reach the same point again, with the same level, the same marks and the
same score of every variable that takes part. The score of any other variable stays what it was on either
side. A component of a loaded formula is not refused. -/
theorem decompose_ignores_leftovers (e d : Engine) (level : Level) (hshared : e.SharesSearch d)
    (hvars : d.pass.vars.size = e.pass.vars.size) (hclauses : d.pass.clauses.size = e.pass.clauses.size)
    (hscores : d.pass.scores.size = e.pass.scores.size) :
    ((∃ err, e.decompose level = .error err ∧ d.decompose level = .error err) ∨
      ∃ super e' d' level', e.superComponent level = .ok super ∧
        e.decompose level = .ok (e', level') ∧ d.decompose level = .ok (d', level') ∧ e'.SharesSearch d' ∧
        d'.pass.vars = e'.pass.vars ∧ d'.pass.clauses = e'.pass.clauses ∧
        (∀ v, super.TakesPart e.assignment v → d'.pass.score v = e'.pass.score v) ∧
        ∀ v, ¬ super.TakesPart e.assignment v →
          e'.pass.score v = e.pass.score v ∧ d'.pass.score v = d.pass.score v) ∧
    ∀ f super, e.Loaded f → e.superComponent level = .ok super → super.Within f →
      ∃ e' level', e.decompose level = .ok (e', level') := by
  refine ⟨?_, fun f super hloaded hsuper hfit => ?_⟩
  · rw [hshared.eq]
    rcases hsuper : e.superComponent level with err | super
    · exact .inl ⟨err, decompose_of_error hsuper,
        decompose_of_error (e := { e with config := d.config, pass := d.pass }) hsuper⟩
    · obtain ⟨hisolated, hfound, hpasses⟩ := Pass.split_agree e.adjacency e.assignment super hvars hclauses hscores
      have hleft := decompose_withOwn e.config e.pass hsuper
      have hright := decompose_withOwn d.config d.pass hsuper
      simp only [hisolated, hfound] at hleft hright
      -- Both are one outcome, with the final state of one pass or the other.
      rcases hafter : afterPass super level (e.pass.split e.adjacency e.assignment super).isolated
        (e.pass.split e.adjacency e.assignment super).found e with err | ⟨e', level'⟩ <;> rw [hafter] at hleft hright
      · exact .inl ⟨err, hleft, hright⟩
      · exact .inr ⟨super, _, _, level', rfl, hleft, hright, ⟨rfl, rfl, rfl, rfl, rfl⟩, hpasses.vars, hpasses.clauses,
          hpasses.score, fun v hv => ⟨e.pass.split_score e.adjacency e.assignment super hv,
            d.pass.split_score e.adjacency e.assignment super hv⟩⟩
  · obtain ⟨e', level', -, -, hok, -⟩ := decompose_isOk hloaded hsuper hfit
    exact ⟨e', level', hok⟩

/-- The first variable is assigned. An engine with marks, scores and a worklist left over from elsewhere
gives the third variable the same score as one that was just loaded, and keeps its score of the first one. -/
theorem decompose_ignores_leftovers_twoParts :
    let first : Var := ⟨1, by decide⟩
    let third : Var := ⟨3, by decide⟩
    ∃ (e₀ e d e' d' : Engine) (level' : Level),
      Engine.new.load (.ofCnf .twoParts) = .ok e₀ ∧ e₀.assign (first.lit true) = .ok e ∧
      d = { e with
        config := { caching := false }
        pass := ⟨.replicate 7 .seen, .replicate 2 .placed, .replicate 7 9, #[third, first]⟩ } ∧
      e.decompose (.new 0 1) = .ok (e', level') ∧ d.decompose (.new 0 1) = .ok (d', level') ∧ e'.SharesSearch d' ∧
      d'.pass.vars = e'.pass.vars ∧ d'.pass.clauses = e'.pass.clauses ∧
      e'.pass.score third = 4 ∧ d'.pass.score third = 4 ∧ e'.pass.score first = 0 ∧ d'.pass.score first = 9 := by
  intro first third
  have hcalls : (do
      let e₀ ← Engine.new.load (.ofCnf .twoParts)
      let e ← e₀.assign (first.lit true)
      let super ← e.superComponent (.new 0 1)
      let s ← e.decompose (.new 0 1)
      return ([e.pass.vars.size, e.pass.clauses.size, e.pass.scores.size, e.pass.score first, s.1.pass.score third],
        [decide (super.TakesPart e.assignment first), decide (super.TakesPart e.assignment third)])) =
        (.ok ([7, 2, 7, 0, 4], [false, true]) : Except EngineError _) := by decide +kernel
  simp only [bind_eq_ok] at hcalls
  obtain ⟨e₀, hload, e, hassign, super, hsuper, ⟨e', level'⟩, hd, h⟩ := hcalls
  injection h with h
  simp only [Prod.mk.injEq, List.cons.injEq, and_true, decide_eq_true_eq, decide_eq_false_iff_not] at h
  obtain ⟨⟨hvars, hclauses, hscores, hzero, hfour⟩, hfirst, hthird⟩ := h
  let leftovers : Pass := ⟨.replicate 7 .seen, .replicate 2 .placed, .replicate 7 9, #[third, first]⟩
  obtain ⟨⟨err, hno, -⟩ | ⟨super', e₁, d', level₁, hsuper', hd₁, hd', hshared, hv, hc, hsame, hkept⟩, -⟩ :=
    decompose_ignores_leftovers e { e with config := { caching := false }, pass := leftovers } (.new 0 1)
      ⟨rfl, rfl, rfl, rfl, rfl⟩ hvars.symm hclauses.symm hscores.symm
  · cases hd.symm.trans hno
  · obtain ⟨rfl, rfl⟩ := Prod.mk.inj (Except.ok.inj (hd.symm.trans hd₁))
    obtain rfl := Except.ok.inj (hsuper.symm.trans hsuper')
    obtain ⟨hleft, hright⟩ := hkept first hfirst
    exact ⟨e₀, e, _, e', d', level', hload, hassign, rfl, hd, hd', hshared, hv, hc, hfour, (hsame third hthird).trans hfour,
      hleft.trans hzero, hright⟩

end Engine

end ModelCount
