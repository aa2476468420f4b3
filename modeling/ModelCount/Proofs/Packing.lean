/-
Packed keys determine the ids of a component. A stream of bits is a number written to the base of
the words; writing a value adds it above the bits that are there. So the words of a key are the
number whose digits are the two sizes and the sorted ids, and the sizes tell where the ids end.
-/
import Mathlib.Data.List.Perm.Subperm
import Mathlib.Data.Nat.Digits.Defs
import Mathlib.Tactic.Ring
import ModelCount.Packing.Key

namespace ModelCount

/-- What a computation of two steps needs to succeed. -/
theorem bind_eq_ok {ε α β : Type} {x : Except ε α} {g : α → Except ε β} {b : β} :
    x >>= g = .ok b ↔ ∃ a, x = .ok a ∧ g a = .ok b := by
  cases x with
  | error e => simp [bind, Except.bind]
  | ok a => simp [bind, Except.bind]

/-- Where a computation of two steps fails. -/
theorem bind_eq_error {ε α β : Type} {x : Except ε α} {g : α → Except ε β} {err : ε} :
    x >>= g = .error err ↔ x = .error err ∨ ∃ a, x = .ok a ∧ g a = .error err := by
  cases x with
  | error e => simp [bind, Except.bind]
  | ok a => simp [bind, Except.bind]

theorem lt_two_pow_bitLength (n : Nat) : n < 2 ^ bitLength n := by
  unfold bitLength
  split
  · omega
  · exact Nat.lt_log2_self

theorem bitLength_le_of_lt {n k : Nat} (h : n < 2 ^ k) : bitLength n ≤ k := by
  unfold bitLength
  split
  · exact Nat.zero_le k
  · exact (Nat.log2_lt ‹_›).2 h

theorem sortIds_perm (ids : List Nat) : (sortIds ids).Perm ids := sortBy_perm _ ids

@[simp] theorem length_sortIds (ids : List Nat) : (sortIds ids).length = ids.length := (sortIds_perm ids).length_eq

theorem forall_mem_sortIds {ids : List Nat} {P : Nat → Prop} : (∀ i ∈ sortIds ids, P i) ↔ ∀ i ∈ ids, P i :=
  forall_congr' fun _ => imp_congr_left (sortIds_perm ids).mem_iff

/-! ## Digits -/

/-- The lowest digit, and the number without it. -/
theorem add_mul_mod_div {base x m : Nat} (hx : x < base) :
    (x + base * m) % base = x ∧ (x + base * m) / base = m := by
  constructor
  · rw [Nat.add_mul_mod_self_left, Nat.mod_eq_of_lt hx]
  · rw [Nat.add_mul_div_left _ _ (by omega), Nat.div_eq_of_lt hx, Nat.zero_add]

/-- A number below a base and a number of bases, put together, are told apart again. -/
theorem add_mul_inj {base x y m n : Nat} (hx : x < base) (hy : y < base) (h : x + base * m = y + base * n) :
    x = y ∧ m = n := by
  obtain ⟨hmod, hdiv⟩ := add_mul_mod_div (m := m) hx
  obtain ⟨hmod', hdiv'⟩ := add_mul_mod_div (m := n) hy
  rw [h] at hmod hdiv
  exact ⟨hmod.symm.trans hmod', hdiv.symm.trans hdiv'⟩

theorem ofDigits_inj {base : Nat} : ∀ {xs ys : List Nat}, xs.length = ys.length → (∀ x ∈ xs, x < base) →
    (∀ y ∈ ys, y < base) → Nat.ofDigits base xs = Nat.ofDigits base ys → xs = ys
  | [], [], _, _, _, _ => rfl
  | x :: xs, y :: ys, hlen, hx, hy, h => by
    rw [List.forall_mem_cons] at hx hy
    rw [Nat.ofDigits_cons, Nat.ofDigits_cons] at h
    obtain ⟨rfl, htail⟩ := add_mul_inj hx.1 hy.1 h
    rw [ofDigits_inj (Nat.succ.inj hlen) hx.2 hy.2 htail]

theorem ofDigits_lt_pow {base : Nat} : ∀ {xs : List Nat}, (∀ x ∈ xs, x < base) →
    Nat.ofDigits base xs < base ^ xs.length
  | [], _ => by simp
  | x :: xs, hx => by
    rw [List.forall_mem_cons] at hx
    have ih := ofDigits_lt_pow hx.2
    rw [Nat.ofDigits_cons, List.length_cons, Nat.pow_succ']
    calc x + base * Nat.ofDigits base xs < base + base * Nat.ofDigits base xs := by have := hx.1; simp; omega
      _ = base * (Nat.ofDigits base xs + 1) := by ring
      _ ≤ base * base ^ xs.length := Nat.mul_le_mul_left _ ih

/-! ## Streams of bits -/

namespace BitWriter

/-- The words as one number, the first word least. -/
def ofWords (words : Array UInt32) : Nat := Nat.ofDigits wordSize (words.toList.map UInt32.toNat)

/-- The bits written so far as one number. -/
def number (w : BitWriter) : Nat := ofWords w.words

/-- The number of words without a free bit. -/
def fullWords (w : BitWriter) : Nat := if w.endBits = 0 then w.words.size else w.words.size - 1

/-- How many bits were written. -/
def length (w : BitWriter) : Nat := wordBits * w.fullWords + w.endBits

/-- Bits are used in the last word if there is one, and nothing is written beyond them. -/
structure Tight (w : BitWriter) : Prop where
  endBits_lt : w.endBits < wordBits
  nonempty : w.endBits ≠ 0 → 0 < w.words.size
  number_lt : w.number < 2 ^ w.length

theorem ofWords_push (words : Array UInt32) (x : UInt32) :
    ofWords (words.push x) = ofWords words + wordSize ^ words.size * x.toNat := by
  simp [ofWords, Nat.ofDigits_append]

theorem tight_empty : Tight {} := ⟨by decide, by simp, by decide⟩

theorem wordSize_eq : wordSize = 2 ^ wordBits := Nat.one_shiftLeft _

theorem pow_length (w : BitWriter) : 2 ^ w.length = wordSize ^ w.fullWords * 2 ^ w.endBits := by
  rw [length, Nat.pow_add, Nat.pow_mul, wordSize_eq]

theorem write_tooWide (w : BitWriter) {value bits : Nat} (h : 2 ^ bits ≤ value) :
    w.write value bits = .error (.valueTooWide value bits) := by
  rw [write, Nat.one_shiftLeft, if_pos h]

theorem write_isOk (w : BitWriter) {value bits : Nat} (h : value < 2 ^ bits) : ∃ w', w.write value bits = .ok w' := by
  rw [write, Nat.one_shiftLeft, if_neg (Nat.not_le.2 h)]
  split
  · exact ⟨w, rfl⟩
  · dsimp only
    split <;> exact ⟨_, rfl⟩

/-- The word that the next bits go into, which may be a new one: it has nothing but the bits used so far. -/
theorem Tight.exists_last {w : BitWriter} (hw : w.Tight) : ∃ (init : Array UInt32) (last : UInt32),
    (if w.endBits = 0 then w.words.push 0 else w.words) = init.push last ∧ init.size = w.fullWords ∧
      last.toNat < 2 ^ w.endBits ∧ w.number = ofWords init + wordSize ^ w.fullWords * last.toNat := by
  by_cases h : w.endBits = 0
  · rw [if_pos h, fullWords, if_pos h]
    exact ⟨w.words, 0, rfl, rfl, by simp, by simp [number]⟩
  · obtain ⟨init, last, hwords⟩ := Array.exists_push_of_size_pos (hw.nonempty h)
    have hfull : w.fullWords = init.size := by rw [fullWords, if_neg h, hwords, Array.size_push, Nat.add_sub_cancel]
    have hnumber : w.number = ofWords init + wordSize ^ w.fullWords * last.toNat := by
      rw [number, hwords, ofWords_push, hfull]
    have hlt := hw.number_lt
    rw [hnumber, pow_length] at hlt
    rw [if_neg h]
    exact ⟨init, last, hwords, hfull.symm, Nat.lt_of_mul_lt_mul_left ((Nat.le_add_left ..).trans_lt hlt), hnumber⟩

theorem wordSize_split {used : Nat} (h : used ≤ wordBits) : wordSize = 2 ^ used * 2 ^ (wordBits - used) := by
  rw [wordSize_eq, ← Nat.pow_add, Nat.add_sub_cancel' h]

/-- Bits that are put above those of a word, as far as the word has room. -/
theorem or_shiftLeft {last used value : Nat} (hlast : last < 2 ^ used) (hused : used ≤ wordBits) :
    last ||| value <<< used % wordSize = last + 2 ^ used * (value % 2 ^ (wordBits - used)) := by
  rw [Nat.shiftLeft_eq, Nat.mul_comm value, wordSize_split hused, Nat.mul_mod_mul_left, Nat.or_comm,
    ← Nat.two_pow_add_eq_or_of_lt hlast, Nat.add_comm]

theorem Tight.of_number {w w' : BitWriter} (hw : w.Tight) {value bits : Nat} (hvalue : value < 2 ^ bits)
    (hend : w'.endBits < wordBits) (hwords : 0 < w'.words.size) (hnumber : w'.number = w.number + 2 ^ w.length * value)
    (hlength : w'.length = w.length + bits) : w'.Tight := by
  refine ⟨hend, fun _ => hwords, ?_⟩
  rw [hnumber, hlength, Nat.pow_add]
  calc w.number + 2 ^ w.length * value < 2 ^ w.length + 2 ^ w.length * value :=
        Nat.add_lt_add_right hw.number_lt _
    _ = 2 ^ w.length * (value + 1) := by ring
    _ ≤ 2 ^ w.length * 2 ^ bits := Nat.mul_le_mul_left _ hvalue

/-- Putting bits into the last word. -/
theorem set_last (init : Array UInt32) (last x : UInt32) :
    (init.push last).setIfInBounds ((init.push last).size - 1)
      ((init.push last).getD ((init.push last).size - 1) 0 ||| x) = init.push (last ||| x) := by
  refine Array.toList_inj.1 ?_
  simp

theorem toNat_or_ofNat {last : UInt32} {used value : Nat} (hlast : last.toNat < 2 ^ used) (hused : used ≤ wordBits) :
    (last ||| UInt32.ofNat (value <<< used)).toNat = last.toNat + 2 ^ used * (value % 2 ^ (wordBits - used)) := by
  rw [UInt32.toNat_or, UInt32.toNat_ofNat']
  exact or_shiftLeft hlast hused

section Write

variable {w : BitWriter} {init : Array UInt32} {last : UInt32} {value bits : Nat}

/-- What a write leaves if the last word has room for the value. -/
theorem written_within (hsize : init.size = w.fullWords) (hlast : last.toNat < 2 ^ w.endBits)
    (hnumber : w.number = ofWords init + wordSize ^ w.fullWords * last.toNat) (hvalue : value < 2 ^ bits)
    (hpos : bits ≠ 0) (hstop : w.endBits + bits ≤ wordBits) :
    number ⟨init.push (last ||| UInt32.ofNat (value <<< w.endBits)), (w.endBits + bits) % wordBits⟩ =
        w.number + 2 ^ w.length * value ∧
      length ⟨init.push (last ||| UInt32.ofNat (value <<< w.endBits)), (w.endBits + bits) % wordBits⟩ =
        w.length + bits := by
  constructor
  · have hroom : value < 2 ^ (wordBits - w.endBits) :=
      hvalue.trans_le (Nat.pow_le_pow_right (by decide) (by omega))
    rw [number, ofWords_push, hsize, toNat_or_ofNat hlast (by omega), Nat.mod_eq_of_lt hroom, hnumber, pow_length]
    ring
  · rw [length, length, fullWords]
    rcases Nat.lt_or_eq_of_le hstop with hlt | heq
    · rw [Nat.mod_eq_of_lt hlt, if_neg (by show w.endBits + bits ≠ 0; omega)]
      simp only [Array.size_push, hsize, Nat.add_sub_cancel, Nat.add_assoc]
    · rw [heq, Nat.mod_self, if_pos rfl]
      simp only [Array.size_push, hsize, Nat.mul_succ]
      omega

/-- What a write leaves if the value reaches into another word. -/
theorem written_across (hsize : init.size = w.fullWords) (hlast : last.toNat < 2 ^ w.endBits)
    (hnumber : w.number = ofWords init + wordSize ^ w.fullWords * last.toNat) (hend : w.endBits ≤ wordBits)
    (hvalue : value < wordSize) (hstop : wordBits < w.endBits + bits) :
    number ⟨(init.push (last ||| UInt32.ofNat (value <<< w.endBits))).push
        (UInt32.ofNat (value >>> (wordBits - w.endBits))), w.endBits + bits - wordBits⟩ =
        w.number + 2 ^ w.length * value ∧
      length ⟨(init.push (last ||| UInt32.ofNat (value <<< w.endBits))).push
        (UInt32.ofNat (value >>> (wordBits - w.endBits))), w.endBits + bits - wordBits⟩ = w.length + bits := by
  constructor
  · have hcarry : (UInt32.ofNat (value >>> (wordBits - w.endBits))).toNat = value / 2 ^ (wordBits - w.endBits) := by
      rw [UInt32.toNat_ofNat', Nat.shiftRight_eq_div_pow]
      exact Nat.mod_eq_of_lt ((Nat.div_le_self ..).trans_lt hvalue)
    -- The value is in the last word as far as that has room, and above it as far as it has not.
    have hsplit : 2 ^ w.endBits * (value % 2 ^ (wordBits - w.endBits)) +
        wordSize * (value / 2 ^ (wordBits - w.endBits)) = 2 ^ w.endBits * value := by
      rw [wordSize_split hend, Nat.mul_assoc, ← Nat.mul_add, Nat.mod_add_div]
    rw [number, ofWords_push, ofWords_push, Array.size_push, hsize, toNat_or_ofNat hlast hend, hcarry, hnumber,
      pow_length]
    calc _ = ofWords init + wordSize ^ w.fullWords * last.toNat + wordSize ^ w.fullWords *
          (2 ^ w.endBits * (value % 2 ^ (wordBits - w.endBits)) +
            wordSize * (value / 2 ^ (wordBits - w.endBits))) := by ring
      _ = _ := by rw [hsplit]; ring
  · rw [length, length, fullWords, if_neg (by show w.endBits + bits - wordBits ≠ 0; omega)]
    simp only [Array.size_push, hsize, Nat.add_sub_cancel, Nat.mul_succ]
    omega

/-- Writing a value puts it above the bits that are there. -/
theorem write_eq_ok {w' : BitWriter} (hw : w.Tight) (hbits : bits ≤ wordBits) (h : w.write value bits = .ok w') :
    w'.Tight ∧ w'.number = w.number + 2 ^ w.length * value ∧ w'.length = w.length + bits ∧ value < 2 ^ bits := by
  rw [write, Nat.one_shiftLeft] at h
  split at h
  · cases h
  rename_i hfits
  have hvalue := Nat.lt_of_not_le hfits
  split at h
  · rename_i hzero
    cases h
    rw [hzero, Nat.pow_zero, Nat.lt_one_iff] at hvalue
    exact ⟨hw, by simp [hvalue], by rw [hzero, Nat.add_zero], by simp [hvalue]⟩
  rename_i hpos
  have hend := hw.endBits_lt
  obtain ⟨init, last, hnums, hsize, hlast, hnum⟩ := hw.exists_last
  simp only [hnums, set_last] at h
  split at h
  · rename_i hstop
    cases h
    have hsmall : value < wordSize := hvalue.trans_le (wordSize_eq ▸ Nat.pow_le_pow_right (by decide) hbits)
    have hend' : w.endBits + bits - wordBits < wordBits := by omega
    obtain ⟨hnumber, hlength⟩ := written_across hsize hlast hnum hend.le hsmall hstop
    exact ⟨hw.of_number hvalue hend' (by simp) hnumber hlength, hnumber, hlength, hvalue⟩
  · rename_i hstop
    cases h
    obtain ⟨hnumber, hlength⟩ := written_within hsize hlast hnum hvalue hpos (Nat.le_of_not_lt hstop)
    exact ⟨hw.of_number hvalue (Nat.mod_lt _ (by decide)) (by simp) hnumber hlength, hnumber, hlength, hvalue⟩

end Write

/-- Writing several values of one width puts them above the bits as digits. -/
theorem writeAll_eq_ok {values : List Nat} {bits : Nat} (hbits : bits ≤ wordBits) : ∀ {w w' : BitWriter}, w.Tight →
    w.writeAll values bits = .ok w' →
    w'.Tight ∧ w'.number = w.number + 2 ^ w.length * Nat.ofDigits (2 ^ bits) values ∧
      w'.length = w.length + bits * values.length ∧ ∀ v ∈ values, v < 2 ^ bits := by
  induction values with
  | nil =>
    intro w w' hw h
    cases h
    exact ⟨hw, by simp, by simp, by simp⟩
  | cons v values ih =>
    intro w w' hw h
    rw [writeAll, List.foldlM_cons, bind_eq_ok] at h
    obtain ⟨w₁, h₁, h⟩ := h
    obtain ⟨hw₁, hnum₁, hlen₁, hv⟩ := write_eq_ok hw hbits h₁
    obtain ⟨hw', hnum, hlen, hvs⟩ := ih hw₁ h
    refine ⟨hw', ?_, ?_, List.forall_mem_cons.2 ⟨hv, hvs⟩⟩
    · rw [hnum, hnum₁, hlen₁, Nat.ofDigits_cons, Nat.pow_add]; ring
    · rw [hlen, hlen₁, List.length_cons]; ring

theorem writeAll_isOk {values : List Nat} {bits : Nat} (h : ∀ v ∈ values, v < 2 ^ bits) :
    ∀ w : BitWriter, ∃ w', w.writeAll values bits = .ok w' := by
  induction values with
  | nil => exact fun w => ⟨w, rfl⟩
  | cons v values ih =>
    intro w
    rw [List.forall_mem_cons] at h
    obtain ⟨w₁, h₁⟩ := w.write_isOk h.1
    obtain ⟨w', h'⟩ := ih h.2 w₁
    exact ⟨w', by rw [writeAll, List.foldlM_cons, h₁]; exact h'⟩

/-- The words of a finished stream are the number that was written. -/
theorem ofWords_finish (w : BitWriter) : ofWords w.finish = w.number := rfl

end BitWriter

/-! ## Keys -/

/-- The numbers of variables and clauses and all ids are within the widths of the scheme. -/
structure Component.FitsIn (c : Component) (s : PackingScheme) : Prop where
  vars_length : c.vars.length < 2 ^ s.sizeBits
  clauses_length : c.clauses.length < 2 ^ s.sizeBits
  var_id : ∀ v ∈ c.vars, v.id < 2 ^ s.varBits
  clause_id : ∀ k ∈ c.clauses, k.id < 2 ^ s.clauseBits

namespace PackedKey

variable {s : PackingScheme} {c d : Component}

/-- The writer that made a key: its number has the sizes and the sorted ids as digits, which are all its
bits. -/
theorem writer_of_encode {k : PackedKey} (h : encode s c = .ok k) :
    ∃ w : BitWriter, w.Tight ∧ k.words = w.finish ∧
      w.number = c.vars.length + 2 ^ s.sizeBits * (c.clauses.length + 2 ^ s.sizeBits *
        (Nat.ofDigits (2 ^ s.varBits) (sortIds (c.vars.map Var.id)) + (2 ^ s.varBits) ^ c.vars.length *
          Nat.ofDigits (2 ^ s.clauseBits) (sortIds (c.clauses.map ClauseId.id)))) ∧
      w.length = 2 * s.sizeBits + s.varBits * c.vars.length + s.clauseBits * c.clauses.length ∧
      c.vars.length < 2 ^ s.sizeBits ∧ c.clauses.length < 2 ^ s.sizeBits ∧
      (∀ i ∈ sortIds (c.vars.map Var.id), i < 2 ^ s.varBits) ∧
      ∀ i ∈ sortIds (c.clauses.map ClauseId.id), i < 2 ^ s.clauseBits := by
  have hvlen : (sortIds (c.vars.map Var.id)).length = c.vars.length := by simp
  have hclen : (sortIds (c.clauses.map ClauseId.id)).length = c.clauses.length := by simp
  simp only [encode, hvlen, hclen] at h
  simp only [bind_eq_ok] at h
  obtain ⟨w₁, h₁, w₂, h₂, w₃, h₃, w₄, h₄, hk⟩ := h
  cases hk
  obtain ⟨ht₁, hn₁, hl₁, hv₁⟩ := BitWriter.write_eq_ok BitWriter.tight_empty s.sizeBits_le h₁
  obtain ⟨ht₂, hn₂, hl₂, hv₂⟩ := BitWriter.write_eq_ok ht₁ s.sizeBits_le h₂
  obtain ⟨ht₃, hn₃, hl₃, hv₃⟩ := BitWriter.writeAll_eq_ok (s.varBits_le.trans s.sizeBits_le) ht₂ h₃
  obtain ⟨ht₄, hn₄, hl₄, hv₄⟩ := BitWriter.writeAll_eq_ok (s.clauseBits_le.trans s.sizeBits_le) ht₃ h₄
  have hn₀ : ({} : BitWriter).number = 0 := rfl
  have hl₀ : ({} : BitWriter).length = 0 := rfl
  refine ⟨w₄, ht₄, rfl, ?_, ?_, hv₁, hv₂, hv₃, hv₄⟩
  · rw [hn₄, hn₃, hn₂, hn₁, hl₃, hl₂, hl₁, hn₀, hl₀, hvlen, ← Nat.pow_mul]
    ring
  · rw [hl₄, hl₃, hl₂, hl₁, hl₀, hvlen, hclen]
    ring

/-- The words of a key, read as a number, have the sizes and the sorted ids as digits. -/
theorem ofWords_of_encode {k : PackedKey} (h : encode s c = .ok k) :
    BitWriter.ofWords k.words =
      c.vars.length + 2 ^ s.sizeBits * (c.clauses.length + 2 ^ s.sizeBits *
        (Nat.ofDigits (2 ^ s.varBits) (sortIds (c.vars.map Var.id)) + (2 ^ s.varBits) ^ c.vars.length *
          Nat.ofDigits (2 ^ s.clauseBits) (sortIds (c.clauses.map ClauseId.id)))) ∧
      c.vars.length < 2 ^ s.sizeBits ∧ c.clauses.length < 2 ^ s.sizeBits ∧
      (∀ i ∈ sortIds (c.vars.map Var.id), i < 2 ^ s.varBits) ∧
      ∀ i ∈ sortIds (c.clauses.map ClauseId.id), i < 2 ^ s.clauseBits := by
  obtain ⟨w, htight, hwords, hnumber, -, hfits⟩ := writer_of_encode h
  exact ⟨by rw [hwords, BitWriter.ofWords_finish, hnumber], hfits⟩

theorem perm_of_sortIds {xs ys : List Nat} (h : sortIds xs = sortIds ys) : xs.Perm ys :=
  (sortIds_perm xs).symm.trans (h ▸ sortIds_perm ys)

/-- Two components with the same words have the same variables and clauses. -/
theorem perm_of_encode {k l : PackedKey} (hc : encode s c = .ok k) (hd : encode s d = .ok l)
    (h : k.words = l.words) : c.vars.Perm d.vars ∧ c.clauses.Perm d.clauses := by
  obtain ⟨hcn, hcv, hcc, hcvs, hccs⟩ := ofWords_of_encode hc
  obtain ⟨hdn, hdv, hdc, hdvs, hdcs⟩ := ofWords_of_encode hd
  rw [h, hdn] at hcn
  obtain ⟨hvlen, hcn⟩ := add_mul_inj hdv hcv hcn
  obtain ⟨hclen, hcn⟩ := add_mul_inj hdc hcc hcn
  have hvs := ofDigits_lt_pow hcvs
  have hvs' := ofDigits_lt_pow hdvs
  rw [length_sortIds, List.length_map] at hvs hvs'
  rw [hvlen] at hvs' hcn
  obtain ⟨hvars, hclauses⟩ := add_mul_inj hvs' hvs hcn
  have hv := ofDigits_inj (by simp only [length_sortIds, List.length_map, hvlen]) hdvs hcvs hvars
  have hk := ofDigits_inj (by simp only [length_sortIds, List.length_map, hclen]) hdcs hccs hclauses
  exact ⟨((List.map_perm_map_iff fun _ _ => Var.ext_id).1 (perm_of_sortIds hv)).symm,
    ((List.map_perm_map_iff fun _ _ => ClauseId.ext_id).1 (perm_of_sortIds hk)).symm⟩

/-- Ids within the maxima of a scheme fit, and so do their numbers. -/
theorem fitsIn_of_ofMax {maxVar maxClause : Nat} (hs : PackingScheme.ofMax maxVar maxClause = .ok s)
    (hv : ∀ v ∈ c.vars, v.id ≤ maxVar) (hk : ∀ k ∈ c.clauses, k.id ≤ maxClause) (hvn : c.vars.Nodup)
    (hkn : c.clauses.Nodup) : c.FitsIn s := by
  rw [PackingScheme.ofMax] at hs
  split at hs
  swap
  · cases hs
  cases hs
  have hvlen : c.vars.length ≤ maxVar := by
    have hsub : c.vars ⊆ Var.firstN maxVar := fun v h => Var.mem_firstN.2 (hv v h)
    simpa using (List.subperm_of_subset hvn hsub).length_le
  have hklen : c.clauses.length ≤ maxClause := by
    have hsub : c.clauses ⊆ ClauseId.firstN maxClause := fun k h => ClauseId.mem_firstN.2 (hk k h)
    simpa using (List.subperm_of_subset hkn hsub).length_le
  have hsize := lt_two_pow_bitLength (maxVar + maxClause)
  refine ⟨?_, ?_, fun v h => (hv v h).trans_lt (lt_two_pow_bitLength _), fun k h => ?_⟩
  · show c.vars.length < 2 ^ bitLength (maxVar + maxClause)
    omega
  · show c.clauses.length < 2 ^ bitLength (maxVar + maxClause)
    omega
  · exact (hk k h).trans_lt (lt_two_pow_bitLength _)

theorem encode_isOk_of_fitsIn (h : c.FitsIn s) : ∃ k, encode s c = .ok k := by
  obtain ⟨w₁, h₁⟩ := ({} : BitWriter).write_isOk h.vars_length
  obtain ⟨w₂, h₂⟩ := w₁.write_isOk h.clauses_length
  obtain ⟨w₃, h₃⟩ := BitWriter.writeAll_isOk (forall_mem_sortIds.2 (List.forall_mem_map.2 h.var_id)) w₂
  obtain ⟨w₄, h₄⟩ := BitWriter.writeAll_isOk (forall_mem_sortIds.2 (List.forall_mem_map.2 h.clause_id)) w₃
  simp only [encode, length_sortIds, List.length_map, bind_eq_ok]
  exact ⟨_, w₁, h₁, w₂, h₂, w₃, h₃, w₄, h₄, rfl⟩

theorem encode_isOk {maxVar maxClause : Nat} (hs : PackingScheme.ofMax maxVar maxClause = .ok s)
    (hv : ∀ v ∈ c.vars, v.id ≤ maxVar) (hk : ∀ k ∈ c.clauses, k.id ≤ maxClause) (hvn : c.vars.Nodup)
    (hkn : c.clauses.Nodup) : ∃ k, encode s c = .ok k :=
  encode_isOk_of_fitsIn (fitsIn_of_ofMax hs hv hk hvn hkn)

end PackedKey

end ModelCount
