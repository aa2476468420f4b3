/-
Packed keys read back. What is left of a stream of bits is a number too, and reading a value takes the
lowest bits off it. So a reader gets the sizes and the ids of a key in the order they were written in.
-/
import ModelCount.Proofs.Packing

namespace ModelCount

/-- The digits past the end are zeros. -/
theorem getD_eq_ofDigits_div {base : Nat} (hbase : 0 < base) : ∀ (i : Nat) {xs : List Nat}, (∀ x ∈ xs, x < base) →
    xs.getD i 0 = Nat.ofDigits base xs / base ^ i % base
  | _, [], _ => by simp
  | 0, x :: xs, hx => by
    rw [List.forall_mem_cons] at hx
    rw [Nat.pow_zero, Nat.div_one, Nat.ofDigits_cons, List.getD_cons_zero]
    exact (add_mul_mod_div hx.1).1.symm
  | i + 1, x :: xs, hx => by
    rw [List.forall_mem_cons] at hx
    rw [Nat.pow_succ', ← Nat.div_div_eq_div_mul, Nat.ofDigits_cons, List.getD_cons_succ]
    exact (add_mul_mod_div hx.1).2 ▸ getD_eq_ofDigits_div hbase i hx.2

/-! ## Streams of bits -/

/-- The words of a finished stream have room for all its bits. -/
theorem BitWriter.length_le_size_finish {w : BitWriter} (hw : w.Tight) : w.length ≤ w.finish.size * wordBits := by
  have hlt := hw.endBits_lt
  rw [finish, length, fullWords, Nat.mul_comm]
  split
  · omega
  · rename_i h
    obtain ⟨n, hn⟩ := Nat.exists_eq_succ_of_ne_zero (Nat.ne_of_gt (hw.nonempty h))
    rw [hn, Nat.succ_sub_one, Nat.succ_mul]
    omega

namespace BitReader

/-- The bits not read yet as one number. -/
def rest (r : BitReader) : Nat := BitWriter.ofWords r.words / 2 ^ r.position

def advance (r : BitReader) (bits : Nat) : BitReader := { r with position := r.position + bits }

@[simp] theorem words_advance (r : BitReader) (bits : Nat) : (r.advance bits).words = r.words := rfl

@[simp] theorem position_advance (r : BitReader) (bits : Nat) : (r.advance bits).position = r.position + bits := rfl

theorem advance_advance (r : BitReader) (m n : Nat) : (r.advance m).advance n = r.advance (m + n) := by
  simp [advance, Nat.add_assoc]

theorem rest_advance (r : BitReader) (bits : Nat) : (r.advance bits).rest = r.rest / 2 ^ bits := by
  rw [rest, rest, words_advance, position_advance, Nat.pow_add, Nat.div_div_eq_div_mul]

theorem word_eq (r : BitReader) (i : Nat) : r.word i = BitWriter.ofWords r.words / wordSize ^ i % wordSize := by
  have hlt : ∀ x ∈ r.words.toList.map UInt32.toNat, x < wordSize := by
    intro x hx
    obtain ⟨w, -, rfl⟩ := List.mem_map.1 hx
    exact w.toNat_lt
  rw [BitWriter.ofWords, ← getD_eq_ofDigits_div (by decide) i hlt]
  simp only [word, Array.getD_eq_getD_getElem?, List.getD_eq_getElem?_getD, List.getElem?_map, Array.getElem?_toList]
  cases r.words[i]? <;> rfl

/-- The lowest bits are not affected by the bits above them. -/
theorem mod_two_pow_div (x : Nat) {shift bits n : Nat} (h : shift + bits ≤ n) :
    x % 2 ^ n / 2 ^ shift % 2 ^ bits = x / 2 ^ shift % 2 ^ bits := by
  have hsplit : 2 ^ n = 2 ^ shift * 2 ^ (n - shift) := by
    rw [← Nat.pow_add, Nat.add_sub_cancel' (by omega)]
  rw [hsplit, Nat.mod_mul_right_div_self, Nat.mod_mod_of_dvd _ (Nat.pow_dvd_pow 2 (by omega))]

/-- A number of a word, without the bits above the lowest ones. -/
theorem mask_eq {value bits : Nat} (hvalue : value < wordSize) (hbits : bits ≤ wordBits) :
    (if bits < wordBits then value &&& (1 <<< bits - 1) else value) = value % 2 ^ bits := by
  split
  · rw [Nat.one_shiftLeft, Nat.and_two_pow_sub_one_eq_mod]
  · rw [Nat.le_antisymm hbits (Nat.le_of_not_lt ‹_›), ← BitWriter.wordSize_eq, Nat.mod_eq_of_lt hvalue]

/-- The bits of two words are those of the number that has them as digits. -/
theorem extract_eq {low high offset bits : Nat} (hlow : low < wordSize) (hoffset : offset < wordBits)
    (hbits : bits ≤ wordBits) :
    extract low high offset bits = (low + high * wordSize) / 2 ^ offset % 2 ^ bits := by
  have htaken : wordBits - (wordBits - offset) = offset := Nat.sub_sub_self hoffset.le
  have hshift : low >>> offset < 2 ^ (wordBits - offset) := by
    rw [Nat.shiftRight_eq_div_pow, Nat.div_lt_iff_lt_mul (Nat.two_pow_pos _), Nat.mul_comm,
      ← BitWriter.wordSize_split hoffset.le]
    exact hlow
  have hpair : (low + high * wordSize) / 2 ^ offset = low >>> offset + 2 ^ (wordBits - offset) * high := by
    rw [BitWriter.wordSize_split hoffset.le, Nat.mul_comm high, Nat.mul_assoc, Nat.add_mul_div_left _ _ (Nat.two_pow_pos _),
      Nat.shiftRight_eq_div_pow]
  rw [hpair]
  by_cases hreach : wordBits - offset < bits
  · obtain ⟨hmod, hdiv⟩ := add_mul_mod_div (m := high) hshift
    have hvalue : low >>> offset ||| high <<< (wordBits - offset) % wordSize =
        (low >>> offset + 2 ^ (wordBits - offset) * high) % wordSize := by
      rw [BitWriter.or_shiftLeft hshift (Nat.sub_le ..), htaken, BitWriter.wordSize_split (Nat.sub_le wordBits offset),
        htaken, Nat.mod_mul, hmod, hdiv]
    simp only [extract, if_pos hreach]
    rw [hvalue, mask_eq (Nat.mod_lt _ (by decide)) hbits, Nat.mod_mod_of_dvd]
    exact BitWriter.wordSize_eq ▸ Nat.pow_dvd_pow 2 hbits
  · have hdvd : 2 ^ bits ∣ 2 ^ (wordBits - offset) := Nat.pow_dvd_pow 2 (Nat.le_of_not_lt hreach)
    simp only [extract, if_neg hreach]
    rw [mask_eq ((Nat.shiftRight_le ..).trans_lt hlow) hbits, Nat.add_mod, Nat.mod_eq_zero_of_dvd (hdvd.mul_right high),
      Nat.add_zero, Nat.mod_mod]

/-- A read within the words takes the lowest bits off what is left. -/
theorem read_eq {r : BitReader} {bits : Nat} (hbits : bits ≤ wordBits)
    (hend : r.position + bits ≤ r.words.size * wordBits) :
    r.read bits = .ok (r.rest % 2 ^ bits, r.advance bits) := by
  have hoffset : r.position % wordBits < wordBits := Nat.mod_lt _ (by decide)
  have hlow : r.word (r.position / wordBits) < wordSize := by
    rw [word_eq]
    exact Nat.mod_lt _ (by decide)
  have hwindow : r.word (r.position / wordBits) + r.word (r.position / wordBits + 1) * wordSize =
      BitWriter.ofWords r.words / wordSize ^ (r.position / wordBits) % (wordSize * wordSize) := by
    rw [word_eq, word_eq, Nat.mod_mul, Nat.pow_succ, ← Nat.div_div_eq_div_mul, Nat.mul_comm wordSize]
  have hrest : BitWriter.ofWords r.words / wordSize ^ (r.position / wordBits) / 2 ^ (r.position % wordBits) = r.rest := by
    rw [rest, BitWriter.wordSize_eq, ← Nat.pow_mul, Nat.div_div_eq_div_mul, ← Nat.pow_add, Nat.div_add_mod]
  rw [read, if_neg (Nat.not_lt.2 hend)]
  split
  · rename_i hzero
    subst hzero
    rw [Nat.pow_zero, Nat.mod_one]
    rfl
  · dsimp only
    rw [extract_eq hlow hoffset hbits, hwindow, BitWriter.wordSize_eq, ← Nat.pow_add, mod_two_pow_div _ (by omega),
      ← BitWriter.wordSize_eq, hrest]
    rfl

/-- A value that is next in the stream is read, and what is above it is left. -/
theorem read_digit {r : BitReader} {bits x m : Nat} (hbits : bits ≤ wordBits)
    (hend : r.position + bits ≤ r.words.size * wordBits) (hrest : r.rest = x + 2 ^ bits * m) (hx : x < 2 ^ bits) :
    r.read bits = .ok (x, r.advance bits) ∧ (r.advance bits).rest = m := by
  obtain ⟨hmod, hdiv⟩ := add_mul_mod_div (m := m) hx
  rw [read_eq hbits hend, rest_advance, hrest, hmod, hdiv]
  exact ⟨rfl, rfl⟩

/-- Ids that fit are read back, and what is above them is left. -/
theorem readIds_eq {α : Type} (make : Nat → Except IdError α) {id : α → Nat} {bits : Nat} (hbits : bits ≤ wordBits) :
    ∀ (xs : List α) {r : BitReader} {m : Nat}, (∀ x ∈ xs, 0 < id x ∧ id x < 2 ^ bits ∧ make (id x) = .ok x) →
    r.position + bits * xs.length ≤ r.words.size * wordBits →
    r.rest = Nat.ofDigits (2 ^ bits) (xs.map id) + (2 ^ bits) ^ xs.length * m →
    readIds make bits xs.length r = .ok (xs, r.advance (bits * xs.length)) ∧ (r.advance (bits * xs.length)).rest = m
  | [], r, m, _, _, hrest => by
    refine ⟨rfl, ?_⟩
    rw [rest_advance, hrest]
    simp
  | x :: xs, r, m, hx, hend, hrest => by
    rw [List.forall_mem_cons] at hx
    obtain ⟨⟨hpos, hlt, hmake⟩, hx⟩ := hx
    rw [List.length_cons, Nat.mul_succ] at hend
    have hdigit : r.rest = id x + 2 ^ bits * (Nat.ofDigits (2 ^ bits) (xs.map id) + (2 ^ bits) ^ xs.length * m) := by
      rw [hrest, List.map_cons, Nat.ofDigits_cons, List.length_cons]
      ring
    obtain ⟨hread, hnext⟩ := read_digit hbits (by omega) hdigit hlt
    obtain ⟨htail, hm⟩ := readIds_eq make hbits xs hx (by rw [position_advance, words_advance]; omega) hnext
    rw [advance_advance] at htail hm
    rw [List.length_cons, Nat.mul_succ, Nat.add_comm (bits * xs.length) bits]
    refine ⟨?_, hm⟩
    simp only [readIds, hread, hmake, htail, if_neg (Nat.ne_of_gt hpos), Except.mapError, bind, Except.bind, pure,
      Except.pure]

end BitReader

/-! ## Keys -/

theorem sortIds_pairwise (ids : List Nat) : (sortIds ids).Pairwise (· ≤ ·) := by
  refine (sortBy_pairwise (fun a b => ?_) (fun a b c hab hbc => ?_) ids).imp of_decide_eq_true
  · simpa using Nat.le_total a b
  · exact decide_eq_true ((of_decide_eq_true hab).trans (of_decide_eq_true hbc))

theorem sortIds_eq_self {ids : List Nat} (h : ids.Pairwise (· < ·)) : sortIds ids = ids :=
  (sortIds_perm ids).eq_of_pairwise (fun _ _ _ _ => Nat.le_antisymm) (sortIds_pairwise ids) (h.imp Nat.le_of_lt)

namespace PackedKey

variable {s : PackingScheme} {c : Component}

/-- A key is read back as the variables and the clauses it was made from, in increasing order. -/
theorem decode_encode {k : PackedKey} (h : encode s c = .ok k) {vars : List Var} {clauses : List ClauseId}
    (hvars : vars.map Var.id = sortIds (c.vars.map Var.id))
    (hclauses : clauses.map ClauseId.id = sortIds (c.clauses.map ClauseId.id))
    (hmax : ∀ v ∈ vars, v.id ≤ Var.maxId) : k.decode s = .ok { vars, clauses } := by
  obtain ⟨w, htight, hwords, hnumber, hlength, hvlt, hklt, hvfits, hkfits⟩ := writer_of_encode h
  have hvlen : c.vars.length = vars.length := by simpa using (congrArg List.length hvars).symm
  have hklen : c.clauses.length = clauses.length := by simpa using (congrArg List.length hclauses).symm
  rw [← hvars, ← hclauses, hvlen, hklen] at hnumber
  rw [hvlen] at hvlt hlength
  rw [hklen] at hklt hlength
  rw [← hvars, List.forall_mem_map] at hvfits
  rw [← hclauses, List.forall_mem_map] at hkfits
  have hkmax : ∀ j ∈ clauses, j.id ≤ ClauseId.maxId := fun j hj => by
    have hpow : 2 ^ s.clauseBits ≤ 2 ^ wordBits := Nat.pow_le_pow_right (by decide) (s.clauseBits_le.trans s.sizeBits_le)
    exact Nat.le_sub_one_of_lt ((hkfits j hj).trans_le (hpow.trans_eq (Nat.one_shiftLeft _).symm))
  obtain ⟨r, hr⟩ : ∃ r : BitReader, r = { words := k.words } := ⟨_, rfl⟩
  have hrest : r.rest = w.number := by
    rw [hr, BitReader.rest, Nat.pow_zero, Nat.div_one, hwords]
    exact BitWriter.ofWords_finish w
  have hroom : r.position + w.length ≤ r.words.size * wordBits := by
    rw [hr, hwords, Nat.zero_add]
    exact BitWriter.length_le_size_finish htight
  rw [hlength] at hroom
  -- The stream is what was written, and every read takes one of its parts off.
  obtain ⟨h₁, hrest⟩ := BitReader.read_digit s.sizeBits_le (by omega) (hrest.trans hnumber) hvlt
  obtain ⟨h₂, hrest⟩ := BitReader.read_digit s.sizeBits_le
    (by simp only [BitReader.position_advance, BitReader.words_advance]; omega) hrest hklt
  obtain ⟨h₃, hrest⟩ := BitReader.readIds_eq Var.ofId (s.varBits_le.trans s.sizeBits_le) vars
    (fun v hv => ⟨v.id_pos, hvfits v hv, Var.ofId_id (hmax v hv)⟩)
    (by simp only [BitReader.position_advance, BitReader.words_advance]; omega) hrest
  obtain ⟨h₄, -⟩ := BitReader.readIds_eq ClauseId.ofId (m := 0) (s.clauseBits_le.trans s.sizeBits_le) clauses
    (fun j hj => ⟨j.id_pos, hkfits j hj, ClauseId.ofId_id (hkmax j hj)⟩)
    (by simp only [BitReader.position_advance, BitReader.words_advance]; omega) (hrest.trans (by simp))
  rw [decode, ← hr]
  simp only [h₁, h₂, h₃, h₄, bind, Except.bind, pure, Except.pure]

end PackedKey

end ModelCount
