/-
The total of a level. Whatever a search does with a level, each of its two counts is the product of the
numbers that were included in that branch, or 0 as long as there are none. So a count of 0 has two meanings,
which the mark of the branch tells apart; the mark is set once a zero was included, and stays.
-/
import Mathlib.Algebra.BigOperators.Ring.List
import Mathlib.Algebra.Ring.Nat
import Mathlib.Data.List.TakeWhile
import ModelCount.Proofs.Level

namespace ModelCount

/-! ## One branch -/

namespace Branch

/-- The product of the numbers included in a branch, 0 if there are none. -/
def product (included : List Nat) : Nat := if included = [] then 0 else included.prod

theorem product_perm {xs ys : List Nat} (h : xs.Perm ys) : product xs = product ys := by
  have hnil : xs = [] ↔ ys = [] := by rw [← List.length_eq_zero_iff, h.length_eq, List.length_eq_zero_iff]
  rw [product, product, h.prod_eq, if_congr hnil rfl rfl]

/-- Numbers included one after the other are included as their product. -/
theorem foldl_times_cons (b : Branch) (n : Nat) : ∀ included : List Nat,
    (n :: included).foldl times b = b.times (n :: included).prod
  | [] => by rw [List.foldl_cons, List.foldl_nil, List.prod_singleton]
  | m :: included => by
    rw [List.foldl_cons, foldl_times_cons (b.times n) m included, times_times, List.prod_cons (a := n)]

theorem count_times_default (n : Nat) : (times {} n).count = n := by
  by_cases hn : n = 0 <;> simp [times, hn]

/-- The count and the mark of a branch that the numbers were included in. -/
theorem foldl_times_default : ∀ included : List Nat,
    (included.foldl times {}).count = product included ∧ ((included.foldl times {}).unsat = true ↔ 0 ∈ included)
  | [] => ⟨rfl, by simp⟩
  | n :: included => by
    have hzero : (n :: included).prod = 0 ↔ 0 ∈ n :: included := List.prod_eq_zero_iff
    rw [foldl_times_cons, count_times_default, unsat_times, ← hzero]
    exact ⟨by rw [product, if_neg (List.cons_ne_nil n included)], by simp⟩

/-- What is included in a branch that has no models is ignored. -/
theorem foldl_times_of_unsat {b : Branch} (h : b.unsat = true) : ∀ included : List Nat, included.foldl times b = b
  | [] => rfl
  | n :: included => by rw [List.foldl_cons, times, if_pos h, foldl_times_of_unsat h included]

end Branch

namespace Level

/-! ## What a search does with a level -/

inductive Op where
  | times (n : Nat)
  | changeBranch
  | setEnd (n : Nat)
  | next
  | resetRemaining
  deriving DecidableEq

def Op.apply (l : Level) : Op → Level
  | .times n => l.times n
  | .changeBranch => l.changeBranch
  | .setEnd n => l.setEnd n
  | .next => l.next
  | .resetRemaining => l.resetRemaining

/-- The number that an operation includes. -/
def Op.included : Op → Option Nat
  | .times n => some n
  | _ => none

def run (l : Level) (ops : List Op) : Level := ops.foldl Op.apply l

/-- The numbers included before the branch is changed. -/
def firstIncluded (ops : List Op) : List Nat := (ops.takeWhile (· ≠ .changeBranch)).filterMap Op.included

/-- The numbers included after the branch is changed. -/
def secondIncluded (ops : List Op) : List Nat := (ops.dropWhile (· ≠ .changeBranch)).filterMap Op.included

/-- The numbers included in the branch that is active at the end. -/
def activeIncluded (ops : List Op) : List Nat :=
  if .changeBranch ∈ ops then secondIncluded ops else firstIncluded ops

/-- Once the branch is changed, every number is included in the second one. -/
theorem run_of_inSecond : ∀ (ops : List Op) {l : Level}, l.inSecond = true →
    (l.run ops).inSecond = true ∧ (l.run ops).first = l.first ∧
      (l.run ops).second = (ops.filterMap Op.included).foldl Branch.times l.second
  | [], _, h => ⟨h, rfl, rfl⟩
  | op :: ops, l, h => by
    have hstep : (op.apply l).inSecond = true ∧ (op.apply l).first = l.first ∧
        (op.apply l).second = op.included.elim l.second l.second.times := by
      cases op with
      | times n => simp [Op.apply, Op.included, Level.times, h]
      | changeBranch => exact ⟨rfl, rfl, rfl⟩
      | setEnd n => exact ⟨h, rfl, rfl⟩
      | next => exact ⟨h, rfl, rfl⟩
      | resetRemaining => exact ⟨h, rfl, rfl⟩
    obtain ⟨hin, hfirst, hsecond⟩ := run_of_inSecond ops hstep.1
    refine ⟨hin, hfirst.trans hstep.2.1, hsecond.trans ?_⟩
    rw [hstep.2.2, List.filterMap_cons]
    cases op.included <;> rfl

/-- Until the branch is changed, every number is included in the first one. -/
theorem run_of_not_inSecond : ∀ (ops : List Op) {l : Level}, l.inSecond = false →
    (l.run ops).inSecond = decide (.changeBranch ∈ ops) ∧
      (l.run ops).first = (firstIncluded ops).foldl Branch.times l.first ∧
      (l.run ops).second = (secondIncluded ops).foldl Branch.times l.second
  | [], _, h => ⟨h, rfl, rfl⟩
  | op :: ops, l, h => by
    by_cases hop : op = .changeBranch
    · subst hop
      obtain ⟨hin, hfirst, hsecond⟩ := run_of_inSecond ops (l := l.changeBranch) rfl
      exact ⟨hin.trans (by simp), hfirst.trans (by simp [firstIncluded, changeBranch]),
        hsecond.trans (by simp [secondIncluded, changeBranch, List.filterMap_cons, Op.included])⟩
    · have hstep : (op.apply l).inSecond = false ∧ (op.apply l).second = l.second ∧
          (op.apply l).first = op.included.elim l.first l.first.times := by
        cases op with
        | times n => simp [Op.apply, Op.included, Level.times, h]
        | changeBranch => exact (hop rfl).elim
        | setEnd n => exact ⟨h, rfl, rfl⟩
        | next => exact ⟨h, rfl, rfl⟩
        | resetRemaining => exact ⟨h, rfl, rfl⟩
      obtain ⟨hin, hfirst, hsecond⟩ := run_of_not_inSecond ops hstep.1
      have hkeep : firstIncluded (op :: ops) = op.included.toList ++ firstIncluded ops := by
        rw [firstIncluded, List.takeWhile_cons_of_pos (by simpa using hop), List.filterMap_cons]
        cases op.included <;> rfl
      have hdrop : secondIncluded (op :: ops) = secondIncluded ops := by
        rw [secondIncluded, List.dropWhile_cons_of_pos (by simpa using hop), secondIncluded]
      refine ⟨hin.trans (by simp [Ne.symm hop]), hfirst.trans ?_, hsecond.trans (by rw [hdrop, hstep.2.1])⟩
      rw [hstep.2.2, hkeep]
      cases op.included <;> rfl

/-- The branches of a new level after any operations. -/
theorem run_new (superIndex offset : Nat) (ops : List Op) :
    ((new superIndex offset).run ops).inSecond = decide (.changeBranch ∈ ops) ∧
      ((new superIndex offset).run ops).first = (firstIncluded ops).foldl Branch.times {} ∧
      ((new superIndex offset).run ops).second = (secondIncluded ops).foldl Branch.times {} :=
  run_of_not_inSecond ops rfl

theorem active_run_new (superIndex offset : Nat) (ops : List Op) :
    ((new superIndex offset).run ops).active = (activeIncluded ops).foldl Branch.times {} := by
  obtain ⟨hin, hfirst, hsecond⟩ := run_new superIndex offset ops
  rw [active, hin, hfirst, hsecond, activeIncluded]
  by_cases h : Op.changeBranch ∈ ops <;> simp [h]

/-- A level whose active branch has no models keeps its branches until the branch is changed. -/
theorem run_of_foundUnsat {l : Level} (h : l.foundUnsat = true) {ops : List Op} (hops : .changeBranch ∉ ops) :
    (l.run ops).inSecond = l.inSecond ∧ (l.run ops).first = l.first ∧ (l.run ops).second = l.second := by
  rcases hs : l.inSecond with _ | _
  · obtain ⟨hin, hfirst, hsecond⟩ := run_of_not_inSecond ops hs
    have hunsat : l.first.unsat = true := by simpa [foundUnsat, active, hs] using h
    have hnone : ops.dropWhile (· ≠ .changeBranch) = [] := by
      rw [List.dropWhile_eq_nil_iff]
      intro op hop
      exact decide_eq_true fun he : op = .changeBranch => hops (he ▸ hop)
    refine ⟨hin.trans (decide_eq_false hops), hfirst.trans (Branch.foldl_times_of_unsat hunsat _), hsecond.trans ?_⟩
    rw [secondIncluded, hnone, List.filterMap_nil, List.foldl_nil]
  · obtain ⟨hin, hfirst, hsecond⟩ := run_of_inSecond ops hs
    have hunsat : l.second.unsat = true := by simpa [foundUnsat, active, hs] using h
    exact ⟨hin, hfirst, hsecond.trans (Branch.foldl_times_of_unsat hunsat _)⟩

/-! ## The total -/

theorem total_run_new (superIndex offset : Nat) (ops : List Op) :
    ((new superIndex offset).run ops).total =
      Branch.product (firstIncluded ops) + Branch.product (secondIncluded ops) := by
  obtain ⟨-, hfirst, hsecond⟩ := run_new superIndex offset ops
  rw [total, hfirst, hsecond, (Branch.foldl_times_default _).1, (Branch.foldl_times_default _).1]

theorem foundUnsat_run_new (superIndex offset : Nat) (ops : List Op) :
    ((new superIndex offset).run ops).foundUnsat = true ↔ 0 ∈ activeIncluded ops := by
  rw [foundUnsat, active_run_new, (Branch.foldl_times_default _).2]

/-- The total of a level is the sum of two products, of the numbers included before its branch was changed
and of those included after, where no numbers make 0; and the active branch is marked as unsatisfiable if
and only if a zero was included in it. So the order does not matter in which the numbers of a branch come,
a mark and its total stay whatever is done until the branch is changed, and including a number touches
neither the other branch nor the offsets. -/
theorem total_eq_products (superIndex offset : Nat) (ops : List Op) :
    let l := (new superIndex offset).run ops
    l.total = Branch.product (firstIncluded ops) + Branch.product (secondIncluded ops) ∧
    (l.foundUnsat = true ↔ 0 ∈ activeIncluded ops) ∧
    (∀ ops', (firstIncluded ops').Perm (firstIncluded ops) → (secondIncluded ops').Perm (secondIncluded ops) →
      ((new superIndex offset).run ops').total = l.total ∧
      ((.changeBranch ∈ ops' ↔ .changeBranch ∈ ops) →
        ((new superIndex offset).run ops').foundUnsat = l.foundUnsat)) ∧
    (l.foundUnsat = true → ∀ more, .changeBranch ∉ more →
      (l.run more).foundUnsat = true ∧ (l.run more).total = l.total) ∧
    ∀ n, (l.times n).other = l.other ∧ (l.times n).inSecond = l.inSecond ∧ (l.times n).superIndex = l.superIndex ∧
      (l.times n).offset = l.offset ∧ (l.times n).unprocessedEnd = l.unprocessedEnd := by
  intro l
  refine ⟨total_run_new .., foundUnsat_run_new .., fun ops' hfirst hsecond => ⟨?_, fun hchange => ?_⟩,
    fun hunsat more hmore => ?_, fun n => ?_⟩
  · rw [total_run_new, total_run_new, Branch.product_perm hfirst, Branch.product_perm hsecond]
  · have hactive : (activeIncluded ops').Perm (activeIncluded ops) := by
      rw [activeIncluded, activeIncluded, if_congr hchange rfl rfl]
      split
      · exact hsecond
      · exact hfirst
    rw [Bool.eq_iff_iff, foundUnsat_run_new, foundUnsat_run_new, hactive.mem_iff]
  · obtain ⟨hin, hfirst, hsecond⟩ := run_of_foundUnsat hunsat hmore
    refine ⟨?_, by rw [total, total, hfirst, hsecond]⟩
    rw [← hunsat, foundUnsat, foundUnsat, active, active, hin, hfirst, hsecond]
  · obtain ⟨hsuper, hoffset, hin, hother⟩ := l.continues_times n
    exact ⟨hother, hin, hsuper, hoffset, l.unprocessedEnd_times n⟩

end Level

end ModelCount
