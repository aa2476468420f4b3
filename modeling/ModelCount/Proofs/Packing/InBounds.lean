/-
Writing with checked words. A writer that uses bits of its last word has such a word, so no write looks for a
word that is not there. The writers of a key come from a new one, and keep being of that kind.
-/
import ModelCount.Proofs.Checked
import ModelCount.Proofs.Packing

namespace ModelCount

namespace BitWriter

variable {w : BitWriter} {bits : Nat}

/-- A write that looks at the last word only if there is one. -/
def write? (w : BitWriter) (value bits : Nat) : Checked PackError BitWriter :=
  if 1 <<< bits ≤ value then throw (.valueTooWide value bits)
  else if bits = 0 then pure w
  else do
    let words := if w.endBits = 0 then w.words.push 0 else w.words
    let last := words.size - 1
    let word ← (words[last]? : Option UInt32)
    let words := words.setIfInBounds last (word ||| UInt32.ofNat (value <<< w.endBits))
    let stop := w.endBits + bits
    if wordBits < stop then
      return ⟨words.push (UInt32.ofNat (value >>> (wordBits - w.endBits))), stop - wordBits⟩
    else return ⟨words, stop % wordBits⟩

def writeAll? (w : BitWriter) (values : List Nat) (bits : Nat) : Checked PackError BitWriter :=
  values.foldlM (fun w value => w.write? value bits) w

theorem Tight.write?_eq (hw : w.Tight) (value bits : Nat) :
    (w.write? value bits).run = some (w.write value bits) := by
  rw [write?, write]
  split
  · rfl
  split
  · rfl
  obtain ⟨init, last, hwords, -⟩ := hw.exists_last
  have hget : (init.push last)[(init.push last).size - 1]? = some last := by simp
  simp only [hwords, Array.getD_eq_getD_getElem?, hget, Option.getD_some]
  rw [Checked.run_bind_read rfl]
  split <;> rfl

theorem Tight.writeAll?_eq (hbits : bits ≤ wordBits) : ∀ (values : List Nat) {w : BitWriter}, w.Tight →
    (w.writeAll? values bits).run = some (w.writeAll values bits)
  | [], _, _ => rfl
  | value :: values, w, hw => by
    rw [writeAll?, writeAll, List.foldlM_cons, List.foldlM_cons]
    refine Checked.run_bind (hw.write?_eq value bits) fun w' h => ?_
    exact writeAll?_eq hbits values (write_eq_ok hw hbits h).1

end BitWriter

namespace PackedKey

/-- Encodes a component with checked words. -/
def encode? (s : PackingScheme) (c : Component) : Checked PackError PackedKey := do
  let vars := sortIds (c.vars.map Var.id)
  let clauses := sortIds (c.clauses.map ClauseId.id)
  let w ← ({} : BitWriter).write? vars.length s.sizeBits
  let w ← w.write? clauses.length s.sizeBits
  let w ← w.writeAll? vars s.varBits
  let w ← w.writeAll? clauses s.clauseBits
  return ⟨w.finish, mixHash (hashIds vars) (hashIds clauses)⟩

theorem encode?_eq (s : PackingScheme) (c : Component) : (encode? s c).run = some (encode s c) := by
  have hvar : s.varBits ≤ wordBits := s.varBits_le.trans s.sizeBits_le
  have hclause : s.clauseBits ≤ wordBits := s.clauseBits_le.trans s.sizeBits_le
  refine Checked.run_bind (BitWriter.tight_empty.write?_eq _ s.sizeBits) fun w₁ h₁ => ?_
  have ht₁ := (BitWriter.write_eq_ok BitWriter.tight_empty s.sizeBits_le h₁).1
  refine Checked.run_bind (ht₁.write?_eq _ s.sizeBits) fun w₂ h₂ => ?_
  have ht₂ := (BitWriter.write_eq_ok ht₁ s.sizeBits_le h₂).1
  refine Checked.run_bind (ht₂.writeAll?_eq hvar _) fun w₃ h₃ => ?_
  have ht₃ := (BitWriter.writeAll_eq_ok hvar ht₂ h₃).1
  exact Checked.run_bind (ht₃.writeAll?_eq hclause _) fun _ _ => rfl

end PackedKey

end ModelCount
