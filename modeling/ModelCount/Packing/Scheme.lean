/-
Packing schemes: how many bits a variable id, a clause id and the number of either take. The widths
come from the largest ids of the formula, and every width fits into a word.
-/
import ModelCount.Packing.Bits

namespace ModelCount

/-- The number of binary digits of `n`, 0 for 0. -/
def bitLength (n : Nat) : Nat := if n = 0 then 0 else n.log2 + 1

theorem bitLength_mono {m n : Nat} (h : m ≤ n) : bitLength m ≤ bitLength n := by
  unfold bitLength
  by_cases hm : m = 0
  · rw [if_pos hm]
    exact Nat.zero_le _
  · have hn : n ≠ 0 := fun hn => hm (Nat.le_zero.1 (hn ▸ h))
    rw [if_neg hm, if_neg hn]
    exact Nat.succ_le_succ ((Nat.le_log2 hn).2 (Nat.le_trans (Nat.log2_self_le hm) h))

structure PackingScheme where
  varBits : Nat := 0
  clauseBits : Nat := 0
  sizeBits : Nat := 0
  varBits_le : varBits ≤ sizeBits := by omega
  clauseBits_le : clauseBits ≤ sizeBits := by omega
  sizeBits_le : sizeBits ≤ wordBits := by decide
  deriving DecidableEq, Repr

namespace PackingScheme

instance : Inhabited PackingScheme := ⟨{}⟩

/-- The scheme for ids up to the given maxima. The number of all ids has to fit into a word. -/
def ofMax (maxVar maxClause : Nat) : Except PackError PackingScheme :=
  if h : bitLength (maxVar + maxClause) ≤ wordBits then
    .ok {
      varBits := bitLength maxVar
      clauseBits := bitLength maxClause
      sizeBits := bitLength (maxVar + maxClause)
      varBits_le := bitLength_mono (Nat.le_add_right ..)
      clauseBits_le := bitLength_mono (Nat.le_add_left ..)
      sizeBits_le := h }
  else .error (.tooManyIds maxVar maxClause)

end PackingScheme

end ModelCount
