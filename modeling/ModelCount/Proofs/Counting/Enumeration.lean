/-
Counting by enumeration is right. The numbers below two to the number of variables are the truth
assignments, by the positions of their one bits, and every one of them is tried once.
-/
import Mathlib.Data.Nat.Bitwise
import ModelCount.Counting.Enumeration
import ModelCount.Proofs.Counting.Clauses

namespace ModelCount

/-- The variables among the first `n` at the positions of the one bits of a number. -/
def trueVars (n m : Nat) : Finset Var := (Var.firstN n).toFinset.filter fun v => bitAssignment m v = true

theorem mem_trueVars {n m : Nat} {v : Var} : v ∈ trueVars n m ↔ v.id ≤ n ∧ bitAssignment m v = true := by
  rw [trueVars, Finset.mem_filter, List.mem_toFinset, Var.mem_firstN]

/-- Different numbers have different one bits. -/
theorem trueVars_injOn (n : Nat) : Set.InjOn (trueVars n) (Finset.range (2 ^ n)) := by
  intro m hm m' hm' heq
  rw [Finset.mem_coe, Finset.mem_range] at hm hm'
  refine Nat.eq_of_testBit_eq fun i => ?_
  by_cases hi : i < n
  · have hv := Finset.ext_iff.1 heq ⟨i + 1, i.succ_pos⟩
    simp only [mem_trueVars] at hv
    have hbit := (and_congr_right_iff.1 hv) hi
    exact Bool.eq_iff_iff.2 hbit
  · have hpow : 2 ^ n ≤ 2 ^ i := Nat.pow_le_pow_right Nat.two_pos (Nat.le_of_not_lt hi)
    rw [Nat.testBit_lt_two_pow (hm.trans_le hpow), Nat.testBit_lt_two_pow (hm'.trans_le hpow)]

/-- Every truth assignment is that of a number. -/
theorem image_trueVars (n : Nat) : (Finset.range (2 ^ n)).image (trueVars n) = (Var.firstN n).toFinset.powerset := by
  refine Finset.eq_of_subset_of_card_le (fun T hT => ?_) ?_
  · obtain ⟨m, -, rfl⟩ := Finset.mem_image.1 hT
    exact Finset.mem_powerset.2 (Finset.filter_subset ..)
  · rw [Finset.card_powerset, List.toFinset_card_of_nodup (Var.nodup_firstN n), Var.length_firstN,
      Finset.card_image_of_injOn (trueVars_injOn n), Finset.card_range]

namespace Cnf

variable {f : Cnf}

/-- Only the bits at the positions of variables matter. -/
theorem satisfiedBy_trueVars (m : Nat) :
    f.satisfiedBy (fun v => decide (v ∈ trueVars f.varCount m)) = f.satisfiedBy (bitAssignment m) := by
  rw [Bool.eq_iff_iff]
  simp only [satisfiedBy, List.all_eq_true, List.any_eq_true]
  refine forall₂_congr fun c hc => exists_congr fun l => and_congr_right fun hl => ?_
  simp [mem_trueVars, f.var_le c hc l hl]

theorem countBelow_eq (n : Nat) : ∀ count : Nat,
    f.countBelow n count = count + ((Finset.range n).filter fun m => f.satisfiedBy (bitAssignment m)).card := by
  induction n with
  | zero => simp [countBelow]
  | succ n ih =>
    intro count
    rw [countBelow, ih, Finset.range_add_one, Finset.filter_insert]
    split
    · rw [Finset.card_insert_of_notMem (by simp), Nat.add_assoc, Nat.add_comm 1]
    · rfl

/-- Enumeration returns the number of models of every formula that it accepts. -/
theorem enumerate_eq_ok (h : f.varCount ≤ enumerationLimit) : f.enumerate = .ok f.modelCount := by
  rw [enumerate, if_pos h, countBelow_eq, Nat.one_shiftLeft, Nat.zero_add, modelCount, ← image_trueVars,
    Finset.filter_image, Finset.card_image_of_injOn ((trueVars_injOn _).mono fun m hm => Finset.mem_of_mem_filter m hm)]
  simp only [satisfiedBy_trueVars]

end Cnf

end ModelCount
