/-
The count of a branch as a product. A branch that nothing was multiplied into stands for one, and its
count tells the product as soon as something was.
-/
import Mathlib.Algebra.BigOperators.Group.List.Basic
import Mathlib.Data.List.Induction
import ModelCount.Level

namespace ModelCount

namespace Branch

/-- The product of what was multiplied into the branch. -/
def value (b : Branch) : Nat := if b.unsat then 0 else if b.count = 0 then 1 else b.count

/-- An unsatisfiable branch counts nothing. -/
def Sane (b : Branch) : Prop := b.unsat = true → b.count = 0

theorem sane_times {b : Branch} (h : b.Sane) (n : Nat) : (b.times n).Sane := by
  unfold Branch.times Sane at *
  split
  · exact h
  · split
    · exact fun _ => rfl
    · split <;> simp_all

theorem sane_default : Sane {} := fun _ => rfl

theorem value_times (b : Branch) (n : Nat) : (b.times n).value = b.value * n := by
  unfold times value
  by_cases hu : b.unsat = true
  · simp [hu]
  · by_cases hn : n = 0
    · simp [hu, hn]
    · by_cases hc : b.count = 0
      · simp [hu, hn, hc]
      · have h : b.count * n ≠ 0 := Nat.mul_ne_zero hc hn
        simp only [hu, hn, hc, h, if_false, Bool.false_eq_true]

/-- Multiplying two numbers in is multiplying their product in. -/
theorem times_times (b : Branch) (m n : Nat) : (b.times m).times n = b.times (m * n) := by
  unfold times
  by_cases hu : b.unsat = true
  · simp [hu]
  · by_cases hm : m = 0
    · simp [hu, hm]
    · by_cases hn : n = 0
      · by_cases hc : b.count = 0 <;> simp [hu, hm, hc, hn]
      · have hmn : m * n ≠ 0 := Nat.mul_ne_zero hm hn
        by_cases hc : b.count = 0
        · simp [hu, hm, hc, hn, hmn]
        · have hcm : b.count * m ≠ 0 := Nat.mul_ne_zero hc hm
          simp only [hu, hm, hc, hn, hmn, hcm, if_false, Bool.false_eq_true, Nat.mul_assoc]

theorem unsat_times (b : Branch) (n : Nat) : (b.times n).unsat = (b.unsat || decide (n = 0)) := by
  unfold times
  by_cases hu : b.unsat = true
  · simp [hu]
  · by_cases hn : n = 0
    · simp [hu, hn]
    · by_cases hc : b.count = 0 <;> simp [hu, hn, hc]

/-- Once something was multiplied in, a count of zero says that the branch is unsatisfiable. -/
theorem count_times_ne_zero {b : Branch} {n : Nat} (h : (b.times n).unsat = false) : (b.times n).count ≠ 0 := by
  rw [unsat_times, Bool.or_eq_false_iff, decide_eq_false_iff_not] at h
  obtain ⟨hu, hn⟩ := h
  unfold times
  by_cases hc : b.count = 0
  · simp [hu, hn, hc]
  · simp only [hu, hn, hc, if_false, Bool.false_eq_true]
    exact Nat.mul_ne_zero hc hn

theorem count_times {b : Branch} {n : Nat} (hu : b.unsat = false) (hc : b.count ≠ 0) : (b.times n).count = b.count * n := by
  unfold times
  by_cases hn : n = 0 <;> simp [hu, hn, hc]

/-- The product is the count, unless nothing was multiplied in. -/
theorem value_eq {b : Branch} (h : b.Sane) : b.value = if b = {} then 1 else b.count := by
  obtain ⟨count, unsat⟩ := b
  unfold value
  cases unsat with
  | true =>
    have hzero : count = 0 := h rfl
    simp [hzero]
  | false => simp

/-- Once a branch is finished, its count is the product. -/
theorem count_times_one {b : Branch} (h : b.Sane) : (b.times 1).count = b.value := by
  unfold times value
  by_cases hu : b.unsat = true
  · simp [hu, h hu]
  · by_cases hc : b.count = 0 <;> simp [hu, hc]

theorem count_times_zero {b : Branch} (h : b.Sane) : (b.times 0).count = 0 := by
  unfold times
  by_cases hu : b.unsat = true
  · simp [hu, h hu]
  · simp [hu]

end Branch

namespace Level

/-- The branch that is not being counted. -/
def other (l : Level) : Branch := if l.inSecond then l.first else l.second

/-- Only the active branch and the components to be processed may have changed. -/
structure Continues (l l' : Level) : Prop where
  superIndex : l'.superIndex = l.superIndex
  offset : l'.offset = l.offset
  inSecond : l'.inSecond = l.inSecond
  other : l'.other = l.other

theorem Continues.refl (l : Level) : l.Continues l := ⟨rfl, rfl, rfl, rfl⟩

theorem Continues.trans {l l' l'' : Level} (h : l.Continues l') (h' : l'.Continues l'') : l.Continues l'' :=
  ⟨h'.superIndex.trans h.superIndex, h'.offset.trans h.offset, h'.inSecond.trans h.inSecond, h'.other.trans h.other⟩

/-- What was counted in the first branch stays while the second is counted, and the other way round. -/
theorem Continues.first {l l' : Level} (h : l.Continues l') (hs : l.inSecond = true) : l'.first = l.first := by
  simpa only [Level.other, h.inSecond, hs, if_true] using h.other

theorem Continues.second {l l' : Level} (h : l.Continues l') (hs : l.inSecond = false) : l'.second = l.second := by
  simpa only [Level.other, h.inSecond, hs, Bool.false_eq_true, if_false] using h.other

theorem continues_times (l : Level) (n : Nat) : l.Continues (l.times n) := by
  unfold times
  split <;> rename_i h <;> exact ⟨rfl, rfl, rfl, by simp [Level.other, h]⟩

theorem continues_setEnd (l : Level) (n : Nat) : l.Continues (l.setEnd n) := ⟨rfl, rfl, rfl, rfl⟩

theorem continues_next (l : Level) : l.Continues l.next := ⟨rfl, rfl, rfl, rfl⟩

theorem continues_resetRemaining (l : Level) : l.Continues l.resetRemaining := ⟨rfl, rfl, rfl, rfl⟩

@[simp] theorem active_times (l : Level) (n : Nat) : (l.times n).active = l.active.times n := by
  unfold times active
  split <;> simp_all

theorem unprocessedEnd_times (l : Level) (n : Nat) : (l.times n).unprocessedEnd = l.unprocessedEnd := by
  unfold times
  split <;> rfl

@[simp] theorem active_setEnd (l : Level) (n : Nat) : (l.setEnd n).active = l.active := rfl

@[simp] theorem active_resetRemaining (l : Level) : l.resetRemaining.active = l.active := rfl

@[simp] theorem active_next (l : Level) : l.next.active = l.active := rfl

theorem times_times (l : Level) (m n : Nat) : (l.times m).times n = l.times (m * n) := by
  by_cases h : l.inSecond = true <;> simp [times, h, Branch.times_times]

theorem times_setEnd (l : Level) (m n : Nat) : (l.setEnd m).times n = (l.times n).setEnd m := by
  by_cases h : l.inSecond = true <;> simp [times, setEnd, h]

theorem total_eq_active (l : Level) : l.total = l.active.count + l.other.count := by
  by_cases h : l.inSecond = true <;> simp [total, active, other, h, Nat.add_comm]

/-- Multiplying a number into a level that has a count already. The total stays only if the number is one or
the branch is unsatisfiable. -/
theorem times_total_iff {l l₀ : Level} {m n : Nat} (hl : l = l₀.times m) (hn : n = 0 → l.foundUnsat = true) :
    (l.times n).foundUnsat = l.foundUnsat ∧ ((l.times n).total = l.total ↔ l.foundUnsat = true ∨ n = 1) := by
  have hother : (l.times n).other = l.other := (continues_times l n).other
  simp only [foundUnsat, total_eq_active, hother, active_times] at hn ⊢
  rw [Nat.add_right_cancel_iff, Branch.unsat_times]
  rcases hu : l.active.unsat with _ | _
  · have hn0 : n ≠ 0 := fun h => by simpa [hu] using hn h
    have hc : l.active.count ≠ 0 := by
      rw [hl, active_times] at hu ⊢
      exact Branch.count_times_ne_zero hu
    rw [Branch.count_times hu hc]
    simpa [hn0] using Nat.mul_eq_left hc
  · have hsame : l.active.times n = l.active := by rw [Branch.times, if_pos hu]
    simp [hsame]

theorem hasUnprocessed_times (l : Level) (n : Nat) : (l.times n).hasUnprocessed = l.hasUnprocessed := by
  simp only [hasUnprocessed, (continues_times l n).offset, unprocessedEnd_times]

theorem continues_timesAll {α : Type} (g : α → Nat) (xs : List α) (l : Level) :
    l.Continues (xs.foldl (fun l x => l.times (g x)) l) :=
  List.foldlRecOn xs _ (.refl l) fun l' h x _ => h.trans (continues_times l' (g x))

/-- Multiplying several numbers in. -/
theorem timesAll_spec {α : Type} (g : α → Nat) (xs : List α) : ∀ l : Level, l.active.Sane →
    l.Continues (xs.foldl (fun l x => l.times (g x)) l) ∧ (xs.foldl (fun l x => l.times (g x)) l).active.Sane ∧
      (xs.foldl (fun l x => l.times (g x)) l).active.value = l.active.value * (xs.map g).prod := by
  induction xs with
  | nil => exact fun l h => ⟨.refl l, h, by simp⟩
  | cons x xs ih =>
    intro l h
    obtain ⟨hc, hs, hv⟩ := ih (l.times (g x)) (by simpa using Branch.sane_times h (g x))
    refine ⟨(continues_times l _).trans hc, hs, ?_⟩
    rw [List.foldl_cons, hv, active_times, Branch.value_times, List.map_cons, List.prod_cons, Nat.mul_assoc]

/-- Several numbers and one more are their product. -/
theorem times_timesAll {α : Type} (g : α → Nat) (n : Nat) : ∀ (xs : List α) (l : Level),
    (xs.foldl (fun l x => l.times (g x)) l).times n = l.times ((xs.map g).prod * n)
  | [], l => by simp
  | x :: xs, l => by
    rw [List.foldl_cons, times_timesAll g n xs, times_times, List.map_cons, List.prod_cons, Nat.mul_assoc]

end Level

end ModelCount
