/-
Writers and readers of bits against a plain stream, a list of bits. What a writer holds is the list of the
bits of the values it took, whatever their widths, and a refused value leaves no trace. A reader takes its
values off the front of the list of the bits of its words, and stops where that list is too short.
-/
import ModelCount.Proofs.Packing.Canonical
import ModelCount.Proofs.Packing.Malformed

namespace ModelCount

/-! ## Bits -/

/-- The lowest bits of a number, the least significant one first. -/
def bitsOf (bits n : Nat) : List Bool := (List.range bits).map n.testBit

/-- The number with the given bits, the least significant one first. -/
def ofBits : List Bool → Nat
  | [] => 0
  | b :: bs => b.toNat + 2 * ofBits bs

/-- The bits of words, one word after the other. -/
def wordsBits (words : Array UInt32) : List Bool := words.toList.flatMap fun w => bitsOf wordBits w.toNat

@[simp] theorem length_bitsOf (bits n : Nat) : (bitsOf bits n).length = bits := by simp [bitsOf]

/-- The bits of a number below a power, and then those of what is above the power. -/
theorem bitsOf_add {m a : Nat} (ha : a < 2 ^ m) (n b : Nat) :
    bitsOf (m + n) (a + 2 ^ m * b) = bitsOf m a ++ bitsOf n b := by
  rw [bitsOf, List.range_add, List.map_append, List.map_map, Nat.add_comm a]
  congr 1
  · refine List.map_congr_left fun i hi => ?_
    rw [Nat.testBit_two_pow_mul_add _ ha, if_pos (List.mem_range.1 hi)]
  · refine List.map_congr_left fun i _ => ?_
    rw [Function.comp_apply, Nat.testBit_two_pow_mul_add _ ha, if_neg (by omega), Nat.add_sub_cancel_left]

theorem bitsOf_zero (bits : Nat) : bitsOf bits 0 = List.replicate bits false := by
  simp [bitsOf, List.eq_replicate_iff]

/-- The bits that are left behind the first ones. -/
theorem drop_bitsOf (m n x : Nat) : (bitsOf (m + n) x).drop m = bitsOf n (x / 2 ^ m) := by
  have hsplit := bitsOf_add (Nat.mod_lt x (Nat.two_pow_pos m)) n (x / 2 ^ m)
  rw [Nat.mod_add_div] at hsplit
  rw [hsplit, List.drop_left' (length_bitsOf ..)]

theorem ofBits_bitsOf : ∀ bits n : Nat, ofBits (bitsOf bits n) = n % 2 ^ bits
  | 0, n => (Nat.mod_one n).symm
  | bits + 1, n => by
    have hcons : bitsOf (bits + 1) n = n.testBit 0 :: bitsOf bits (n / 2) := by
      rw [bitsOf, List.range_succ_eq_map, List.map_cons, List.map_map]
      exact congrArg _ (List.map_congr_left fun i _ => Nat.testBit_succ n i)
    rw [hcons, ofBits, ofBits_bitsOf, Nat.toNat_testBit, Nat.pow_zero, Nat.div_one, Nat.pow_succ', Nat.mod_mul]

/-- The first bits of a number are its lowest ones. -/
theorem ofBits_take {bits n : Nat} (h : bits ≤ n) (x : Nat) : ofBits ((bitsOf n x).take bits) = x % 2 ^ bits := by
  have htake : (bitsOf n x).take bits = bitsOf bits x := by
    rw [bitsOf, ← List.map_take, List.take_range, Nat.min_eq_left h, bitsOf]
  rw [htake, ofBits_bitsOf]

/-- The bits of words are those of the number that has the words as digits. -/
theorem wordsBits_eq (words : Array UInt32) :
    wordsBits words = bitsOf (words.size * wordBits) (BitWriter.ofWords words) := by
  rw [wordsBits, BitWriter.ofWords, ← Array.length_toList]
  induction words.toList with
  | nil => rfl
  | cons w ws ih =>
    have hlt : w.toNat < 2 ^ wordBits := w.toNat_lt
    rw [List.flatMap_cons, ih, List.map_cons, Nat.ofDigits_cons, List.length_cons, Nat.succ_mul, Nat.add_comm,
      BitWriter.wordSize_eq, bitsOf_add hlt]

/-! ## Writing -/

/-- The bits of values, each with its width, one value after the other. -/
def streamOf (values : List (Nat × Nat)) : List Bool := values.flatMap fun (value, width) => bitsOf width value

/-- The values that have no more bits than their widths. -/
def kept (writes : List (Nat × Nat)) : List (Nat × Nat) := writes.filter fun (value, width) => value < 2 ^ width

namespace BitWriter

/-- The bits written so far. -/
def bits (w : BitWriter) : List Bool := bitsOf w.length w.number

/-- A value that fits is appended to the bits, and any other is refused. -/
theorem write_bits {w : BitWriter} (hw : w.Tight) (value : Nat) {width : Nat} (hwidth : width ≤ wordBits) :
    if value < 2 ^ width then ∃ w', w.write value width = .ok w' ∧ w'.Tight ∧ w'.bits = w.bits ++ bitsOf width value
    else w.write value width = .error (.valueTooWide value width) := by
  split
  · rename_i hfits
    obtain ⟨w', h⟩ := w.write_isOk hfits
    obtain ⟨hw', hnumber, hlength, -⟩ := write_eq_ok hw hwidth h
    exact ⟨w', h, hw', by rw [bits, hnumber, hlength, bitsOf_add hw.number_lt, bits]⟩
  · exact w.write_tooWide (Nat.le_of_not_lt ‹_›)

/-- What writing values one after the other leaves, and which are refused. -/
theorem writeEach_bits : ∀ (writes : List (Nat × Nat)) {w : BitWriter}, w.Tight → (∀ x ∈ writes, x.2 ≤ wordBits) →
    (w.writeEach writes).1 = (writes.map fun (value, width) =>
      if value < 2 ^ width then .ok () else .error (.valueTooWide value width)) ∧
    (w.writeEach writes).2 = (w.writeEach (kept writes)).2 ∧
    (w.writeEach writes).2.Tight ∧ (w.writeEach writes).2.bits = w.bits ++ streamOf (kept writes)
  | [], w, hw, _ => ⟨rfl, rfl, hw, by simp [writeEach, kept, streamOf]⟩
  | (value, width) :: writes, w, hw, hwidths => by
    rw [List.forall_mem_cons] at hwidths
    have hwrite := write_bits hw value hwidths.1
    by_cases hfits : value < 2 ^ width
    · rw [if_pos hfits] at hwrite
      obtain ⟨w', hok, hw', hbits⟩ := hwrite
      obtain ⟨hresults, hkept, htight, hrest⟩ := writeEach_bits writes hw' hwidths.2
      have hcons : kept ((value, width) :: writes) = (value, width) :: kept writes := by simp [kept, hfits]
      simp only [writeEach, hok, hcons, List.map_cons, if_pos hfits]
      refine ⟨by rw [hresults], hkept, htight, ?_⟩
      rw [hrest, hbits, List.append_assoc]
      rfl
    · rw [if_neg hfits] at hwrite
      obtain ⟨hresults, hkept, htight, hrest⟩ := writeEach_bits writes hw hwidths.2
      have hskip : kept ((value, width) :: writes) = kept writes := by simp [kept, hfits]
      simp only [writeEach, hwrite, hskip, List.map_cons, if_neg hfits]
      exact ⟨by rw [hresults], hkept, htight, hrest⟩

/-- The words of a finished stream are its bits, filled up to a word with zeros. -/
theorem wordsBits_finish {w : BitWriter} (hw : w.Tight) :
    ∃ pad < wordBits, wordsBits w.finish = w.bits ++ List.replicate pad false := by
  have hroom := length_le_size_finish hw
  refine ⟨w.finish.size * wordBits - w.length, ?_, ?_⟩
  · rw [size_finish hw, Nat.ceilDiv_eq_add_pred_div, show wordBits = 32 from rfl]
    omega
  · have hzero := bitsOf_add hw.number_lt (w.finish.size * wordBits - w.length) 0
    rw [Nat.mul_zero, Nat.add_zero, Nat.add_sub_cancel' hroom, bitsOf_zero] at hzero
    rw [wordsBits_eq, ofWords_finish, hzero, bits]

end BitWriter

/-! ## Reading -/

/-- Reads values of the given widths off the front of a stream; where it is too short, it stays as it is. -/
def readBits (stream : List Bool) : List Nat → List (Except PackError Nat)
  | [] => []
  | width :: widths =>
    if stream.length < width then .error .unexpectedEnd :: readBits stream widths
    else .ok (ofBits (stream.take width)) :: readBits (stream.drop width) widths

namespace BitReader

/-- The bits not read yet. -/
def remaining (r : BitReader) : List Bool := (wordsBits r.words).drop r.position

theorem remaining_advance (r : BitReader) (width : Nat) : (r.advance width).remaining = r.remaining.drop width := by
  rw [remaining, remaining, words_advance, position_advance, List.drop_drop]

theorem Bounded.remaining_eq {r : BitReader} (h : r.Bounded) :
    r.remaining = bitsOf (r.words.size * wordBits - r.position) r.rest := by
  have hsplit : r.words.size * wordBits = r.position + (r.words.size * wordBits - r.position) :=
    (Nat.add_sub_cancel' h).symm
  rw [remaining, wordsBits_eq, hsplit, drop_bitsOf, ← hsplit, rest]

/-- A read takes the next bits, and fails where fewer are left. -/
theorem Bounded.read_bits {r : BitReader} (h : r.Bounded) {width : Nat} (hwidth : width ≤ wordBits) :
    r.read width = if r.remaining.length < width then .error .unexpectedEnd
      else .ok (ofBits (r.remaining.take width), r.advance width) := by
  have hpos : r.position ≤ r.words.size * wordBits := h
  rw [h.remaining_eq, length_bitsOf]
  split
  · rw [read, if_pos (by omega)]
  · rw [read_eq hwidth (by omega), ofBits_take (by omega)]

theorem Bounded.advance {r : BitReader} {width : Nat} (h : ¬ r.remaining.length < width) (hr : r.Bounded) :
    (r.advance width).Bounded := by
  have hpos : r.position ≤ r.words.size * wordBits := hr
  rw [hr.remaining_eq, length_bitsOf] at h
  show r.position + width ≤ r.words.size * wordBits
  omega

theorem readEach_bits : ∀ (widths : List Nat) {r : BitReader}, r.Bounded → (∀ n ∈ widths, n ≤ wordBits) →
    r.readEach widths = readBits r.remaining widths
  | [], _, _, _ => rfl
  | width :: widths, r, hr, hwidths => by
    rw [List.forall_mem_cons] at hwidths
    rw [readEach, readBits, hr.read_bits hwidths.1]
    by_cases hend : r.remaining.length < width
    · simp only [if_pos hend]
      rw [readEach_bits widths hr hwidths.2]
    · simp only [if_neg hend]
      rw [readEach_bits widths (hr.advance hend) hwidths.2, remaining_advance]

end BitReader

/-! ## Both -/

/-- Values are read back off the stream they were put into, whatever follows them. -/
theorem readBits_streamOf (rest : List Bool) : ∀ values : List (Nat × Nat), (∀ x ∈ values, x.1 < 2 ^ x.2) →
    readBits (streamOf values ++ rest) (values.map Prod.snd) = values.map fun x => .ok x.1
  | [], _ => rfl
  | (value, width) :: values, h => by
    rw [List.forall_mem_cons] at h
    have hstream : streamOf ((value, width) :: values) ++ rest = bitsOf width value ++ (streamOf values ++ rest) :=
      List.append_assoc ..
    have hlong : ¬ (bitsOf width value ++ (streamOf values ++ rest)).length < width := by simp
    rw [hstream, List.map_cons, readBits, if_neg hlong, List.take_left' (length_bitsOf ..),
      List.drop_left' (length_bitsOf ..), ofBits_bitsOf, Nat.mod_eq_of_lt h.1, readBits_streamOf rest values h.2,
      List.map_cons]

/-- Writers and readers are plain streams of bits. Of values written one after the other, each with a width
of up to a word, those are refused as too wide that have more bits than their width; the writer is the one
that only the others were written to, and its words are the bits of these values, the least significant
first, filled up to the end of a word with zeros. Reading values of given widths from any words takes them
off the front of the bits of the words, and a read of more bits than are left fails and takes none. So the
values that were written are read back with their widths. -/
theorem writer_reader_stream (writes : List (Nat × Nat)) (words : Array UInt32) (widths : List Nat)
    (hwrites : ∀ x ∈ writes, x.2 ≤ wordBits) (hreads : ∀ n ∈ widths, n ≤ wordBits) :
    let (results, w) := ({} : BitWriter).writeEach writes
    results = (writes.map fun (value, width) =>
      if value < 2 ^ width then .ok () else .error (.valueTooWide value width)) ∧
    w = (({} : BitWriter).writeEach (kept writes)).2 ∧
    (∃ pad < wordBits, wordsBits w.finish = streamOf (kept writes) ++ List.replicate pad false) ∧
    ({ words } : BitReader).readEach widths = readBits (wordsBits words) widths ∧
    ({ words := w.finish } : BitReader).readEach ((kept writes).map Prod.snd) =
      (kept writes).map fun x => .ok x.1 := by
  obtain ⟨hresults, hkept, htight, hbits⟩ := BitWriter.writeEach_bits writes BitWriter.tight_empty hwrites
  obtain ⟨pad, hpad, hwords⟩ := BitWriter.wordsBits_finish htight
  rw [hbits] at hwords
  have hread : ∀ (words : Array UInt32) (widths : List Nat), (∀ n ∈ widths, n ≤ wordBits) →
      ({ words } : BitReader).readEach widths = readBits (wordsBits words) widths :=
    fun words widths h => BitReader.readEach_bits widths (Nat.zero_le _) h
  refine ⟨hresults, hkept, ⟨pad, hpad, hwords⟩, hread words widths hreads, ?_⟩
  rw [hread _ _ fun n hn => ?_, hwords]
  · exact readBits_streamOf _ _ fun x hx => by simpa using (List.mem_filter.1 hx).2
  · obtain ⟨x, hx, rfl⟩ := List.mem_map.1 hn
    exact hwrites x (List.mem_filter.1 hx).1

/-- Two of the values kept reach into another word. Reading 31 bits where 30 are left fails, and reading 30 goes
on from the same place. -/
theorem writer_reader_stream_split :
    let writes := [(0x3fffffff, 30), (8, 3), (0b1011, 4), (1, 0), (0, 0), (7, 32)]
    (∀ x ∈ writes, x.2 ≤ wordBits) ∧ (∀ n ∈ [30, 4, 31, 30], n ≤ wordBits) ∧
    let (results, w) := ({} : BitWriter).writeEach writes
    results = [.ok (), .error (.valueTooWide 8 3), .ok (), .error (.valueTooWide 1 0), .ok (), .ok ()] ∧
    (∃ pad < wordBits, wordsBits w.finish =
      bitsOf 30 0x3fffffff ++ bitsOf 4 0b1011 ++ bitsOf 32 7 ++ List.replicate pad false) ∧
    ({ words := #[0xffffffff, 2] } : BitReader).readEach [30, 4, 31, 30] =
      [.ok 0x3fffffff, .ok 0b1011, .error .unexpectedEnd, .ok 0] ∧
    ({ words := w.finish } : BitReader).readEach [30, 4, 0, 32] = [.ok 0x3fffffff, .ok 0b1011, .ok 0, .ok 7] := by
  intro writes
  have hwrites : ∀ x ∈ writes, x.2 ≤ wordBits := by decide
  have hreads : ∀ n ∈ [30, 4, 31, 30], n ≤ wordBits := by decide
  have hkept : kept writes = [(0x3fffffff, 30), (0b1011, 4), (0, 0), (7, 32)] := by decide
  obtain ⟨hresults, -, hwords, hread, hback⟩ := writer_reader_stream writes #[0xffffffff, 2] _ hwrites hreads
  rw [hkept] at hwords hback
  exact ⟨hwrites, hreads, hresults, hwords, hread.trans (by decide +kernel), hback⟩

end ModelCount
