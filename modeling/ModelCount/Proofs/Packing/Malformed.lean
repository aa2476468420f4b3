/-
Keys read under any scheme. A key made with another scheme reads as anything: counts and ids are just fields
of its bits. Reading goes on until a field lies past the end, or is zero, or is more than a variable's id may
be. The first two are reported; the third is a number that nothing checks before a variable is made of it.
-/
import ModelCount.Proofs.Checked
import ModelCount.Proofs.Packing.Decode

namespace ModelCount

/-! ## Ids that are refused -/

theorem Var.ofId_eq_error {id : Nat} (hid : id ≠ 0) {reason : IdError} :
    Var.ofId id = .error reason ↔ Var.maxId < id ∧ reason = .variableTooLarge id := by
  rw [Var.ofId]
  split
  · rename_i hlarge
    simp [hlarge, eq_comm]
  · rename_i hsmall
    simp [hsmall, Nat.pos_of_ne_zero hid]

theorem Var.ofId_eq_ok {id : Nat} {v : Var} (h : Var.ofId id = .ok v) : v.id = id ∧ id ≤ Var.maxId := by
  rw [Var.ofId] at h
  split at h
  · cases h
  · split at h
    · cases h
      exact ⟨rfl, Nat.le_of_not_lt ‹_›⟩
    · cases h

theorem ClauseId.ofId_eq_ok {id : Nat} {k : ClauseId} (h : ClauseId.ofId id = .ok k) : k.id = id ∧ id ≤ ClauseId.maxId := by
  rw [ClauseId.ofId] at h
  split at h
  · cases h
  · split at h
    · cases h
      exact ⟨rfl, Nat.le_of_not_lt ‹_›⟩
    · cases h

/-! ## Reading ids -/

/-- Reading stops: the bits are at an end, or they hold a zero or a number that is no id. -/
def EndsEarly {α : Type} (outcome : Except PackError α) : Prop :=
  outcome = .error .unexpectedEnd ∨ outcome = .error (.invalidId 0) ∨ ∃ reason, outcome = .error (.badId reason)

theorem EndsEarly.bind {α β : Type} {x : Except PackError α} (h : EndsEarly x) (g : α → Except PackError β) :
    EndsEarly (x >>= g) := by
  rcases h with rfl | rfl | ⟨reason, rfl⟩
  · exact .inl rfl
  · exact .inr (.inl rfl)
  · exact .inr (.inr ⟨reason, rfl⟩)

namespace BitReader

/-- A read gets the next bits, or finds that there are not enough of them. -/
theorem read_cases (r : BitReader) {bits : Nat} (hbits : bits ≤ wordBits) :
    r.position + bits ≤ r.words.size * wordBits ∧ r.read bits = .ok (r.rest % 2 ^ bits, r.advance bits) ∨
      r.words.size * wordBits < r.position + bits ∧ r.read bits = .error .unexpectedEnd := by
  rcases Nat.lt_or_ge (r.words.size * wordBits) (r.position + bits) with hend | hend
  · exact .inr ⟨hend, if_pos hend⟩
  · exact .inl ⟨hend, read_eq hbits hend⟩

/-- The field of the given width that comes after `i` others of the same width. -/
def field (r : BitReader) (bits i : Nat) : Nat := r.rest / 2 ^ (bits * i) % 2 ^ bits

theorem field_zero (r : BitReader) (bits : Nat) : r.field bits 0 = r.rest % 2 ^ bits := by simp [field]

theorem field_succ (r : BitReader) (bits i : Nat) : r.field bits (i + 1) = (r.advance bits).field bits i := by
  rw [field, field, rest_advance, Nat.div_div_eq_div_mul, ← Nat.pow_add, Nat.mul_succ, Nat.add_comm bits]

variable {α : Type} (make : Nat → Except IdError α) {bits : Nat}

/-- The ways in which reading ids begins. -/
theorem readIds_succ (hbits : bits ≤ wordBits) (n : Nat) (r : BitReader) :
    readIds make bits (n + 1) r =
      if r.words.size * wordBits < r.position + bits then .error .unexpectedEnd
      else if r.field bits 0 = 0 then .error (.invalidId 0)
      else do
        let id ← (make (r.field bits 0)).mapError .badId
        let (ids, r) ← readIds make bits n (r.advance bits)
        return (id :: ids, r) := by
  rw [field_zero]
  rcases r.read_cases hbits with ⟨hend, hread⟩ | ⟨hend, hread⟩
  · rw [if_neg (Nat.not_lt.2 hend)]
    split
    · rename_i hzero
      rw [hzero] at hread
      simp only [readIds, hread, bind, Except.bind]
      rfl
    · rename_i hzero
      simp only [readIds, hread, bind, Except.bind, if_neg hzero]
  · rw [if_pos hend, readIds, hread]
    rfl

/-- Reading gives ids that could be made, or ends early for a reason that is told. -/
theorem readIds_cases (hbits : bits ≤ wordBits) : ∀ (n : Nat) (r : BitReader),
    (∃ xs r', readIds make bits n r = .ok (xs, r') ∧ ∀ x ∈ xs, ∃ id, make id = .ok x) ∨
      EndsEarly (readIds make bits n r)
  | 0, r => .inl ⟨[], r, rfl, by simp⟩
  | n + 1, r => by
    rw [readIds_succ make hbits]
    split
    · exact .inr (.inl rfl)
    split
    · exact .inr (.inr (.inl rfl))
    rcases hmake : make (r.field bits 0) with reason | x
    · exact .inr (.inr (.inr ⟨reason, rfl⟩))
    rcases readIds_cases hbits n (r.advance bits) with ⟨xs, r', hxs, hall⟩ | h
    · refine .inl ⟨x :: xs, r', ?_, List.forall_mem_cons.2 ⟨⟨_, hmake⟩, hall⟩⟩
      rw [hxs]
      rfl
    · exact .inr (h.bind _)

/-- No id is made of the field `i`, for the given reason, but ids are made of all fields before it. -/
structure BadAt (bits : Nat) (r : BitReader) (reason : IdError) (i : Nat) : Prop where
  room : r.position + bits * (i + 1) ≤ r.words.size * wordBits
  before : ∀ j < i, r.field bits j ≠ 0 ∧ ∃ x, make (r.field bits j) = .ok x
  ne_zero : r.field bits i ≠ 0
  bad : make (r.field bits i) = .error reason

variable {make} {r : BitReader} {reason : IdError}

theorem BadAt.first_room {i : Nat} (h : BadAt make bits r reason i) : ¬ r.words.size * wordBits < r.position + bits := by
  have hroom := h.room
  rw [Nat.mul_succ] at hroom
  omega

theorem BadAt.first_ne_zero : ∀ {i : Nat}, BadAt make bits r reason i → r.field bits 0 ≠ 0
  | 0, h => h.ne_zero
  | i + 1, h => (h.before 0 i.succ_pos).1

theorem badAt_succ {x : α} (hzero : r.field bits 0 ≠ 0) (hx : make (r.field bits 0) = .ok x) {i : Nat} :
    BadAt make bits r reason (i + 1) ↔ BadAt make bits (r.advance bits) reason i := by
  have hroom : r.position + bits * (i + 1 + 1) = (r.advance bits).position + bits * (i + 1) := by
    rw [position_advance, Nat.mul_succ bits (i + 1)]
    omega
  constructor
  · intro h
    refine ⟨hroom ▸ h.room, fun j hj => ?_, field_succ r bits i ▸ h.ne_zero, field_succ r bits i ▸ h.bad⟩
    rw [← field_succ]
    exact h.before (j + 1) (Nat.succ_lt_succ hj)
  · intro h
    refine ⟨hroom ▸ h.room, fun j hj => ?_, (field_succ r bits i).symm ▸ h.ne_zero, (field_succ r bits i).symm ▸ h.bad⟩
    rcases j with _ | j
    · exact ⟨hzero, x, hx⟩
    · rw [field_succ]
      exact h.before j (Nat.lt_of_succ_lt_succ hj)

/-- Reading ids stops at the first field that no id is made of. -/
theorem readIds_eq_badId (hbits : bits ≤ wordBits) {n : Nat} {r : BitReader} :
    readIds make bits n r = .error (.badId reason) ↔ ∃ i < n, BadAt make bits r reason i := by
  induction n generalizing r with
  | zero => simp [readIds]
  | succ n ih =>
    rw [readIds_succ make hbits]
    split
    · rename_i hend
      constructor
      · intro h
        cases h
      · rintro ⟨_, _, h⟩
        exact (h.first_room hend).elim
    split
    · rename_i hzero
      constructor
      · intro h
        cases h
      · rintro ⟨_, _, h⟩
        exact (h.first_ne_zero hzero).elim
    rename_i hend hzero
    rcases hmake : make (r.field bits 0) with reason' | x
    · constructor
      · intro h
        cases h
        exact ⟨0, n.succ_pos, by omega, by simp, hzero, hmake⟩
      · rintro ⟨_ | i, -, h⟩
        · cases hmake.symm.trans h.bad
          rfl
        · obtain ⟨x, hx⟩ := (h.before 0 i.succ_pos).2
          cases hmake.symm.trans hx
    · have hrest : (do
          let id ← (Except.ok x : Except IdError α).mapError PackError.badId
          let (ids, r) ← readIds make bits n (r.advance bits)
          return (id :: ids, r)) = .error (.badId reason) ↔
          readIds make bits n (r.advance bits) = .error (.badId reason) := by
        rcases readIds make bits n (r.advance bits) with err | s
        · exact Iff.rfl
        · constructor <;> intro h <;> cases h
      rw [hrest, ih, Nat.exists_lt_succ_left]
      simp only [badAt_succ hzero hmake]
      exact (or_iff_right fun h => by cases hmake.symm.trans h.bad).symm

/-- No clause id is too large for a word. -/
theorem readIds_clauses_ne_badId (hbits : bits ≤ wordBits) (n : Nat) (r : BitReader) (reason : IdError) :
    readIds ClauseId.ofId bits n r ≠ .error (.badId reason) := by
  intro h
  obtain ⟨i, -, hbad⟩ := (readIds_eq_badId hbits).1 h
  have hlt : r.field bits i < 2 ^ bits := Nat.mod_lt _ (Nat.two_pow_pos _)
  have hword : 2 ^ bits ≤ 2 ^ wordBits := Nat.pow_le_pow_right (by decide) hbits
  have hmax : r.field bits i ≤ ClauseId.maxId :=
    Nat.le_sub_one_of_lt (hlt.trans_le (hword.trans_eq (Nat.one_shiftLeft _).symm))
  cases (ClauseId.ofId_id (c := ⟨_, Nat.pos_of_ne_zero hbad.ne_zero⟩) hmax).symm.trans hbad.bad

/-! ## Reading with checked words -/

/-- The reader is at most at the end of its words. -/
def Bounded (r : BitReader) : Prop := r.position ≤ r.words.size * wordBits

/-- A read that looks only at words that the value reaches into, and fails where there is no such word. -/
def read? (r : BitReader) (bits : Nat) : Checked PackError (Nat × BitReader) :=
  if bits = 0 then pure (0, r)
  else if r.words.size * wordBits < r.position + bits then throw .unexpectedEnd
  else do
    let i := r.position / wordBits
    let offset := r.position % wordBits
    let low ← (r.words[i]? : Option UInt32)
    let high ← (if wordBits - offset < bits then r.words[i + 1]? else some 0 : Option UInt32)
    return (extract low.toNat high.toNat offset bits, r.advance bits)

theorem Bounded.of_read {r r' : BitReader} {bits value : Nat} (h : r.read bits = .ok (value, r')) : r'.Bounded := by
  rw [read] at h
  split at h
  · cases h
  split at h
  · rename_i hend hzero
    cases h
    exact (Nat.le_add_right ..).trans (Nat.le_of_not_lt hend)
  · rename_i hend _
    cases h
    exact Nat.le_of_not_lt hend

theorem getElem?_eq_word {r : BitReader} {i : Nat} (hi : i < r.words.size) :
    ∃ w, r.words[i]? = some w ∧ w.toNat = r.word i := by
  refine ⟨r.words[i], Array.getElem?_eq_getElem hi, ?_⟩
  rw [word, Array.getD_eq_getD_getElem?, Array.getElem?_eq_getElem hi]
  rfl

/-- A value that ends within its word does not depend on the word above. -/
theorem extract_of_fits {low offset bits : Nat} (h : ¬ wordBits - offset < bits) (high high' : Nat) :
    extract low high offset bits = extract low high' offset bits := by
  simp only [extract, if_neg h]

theorem Bounded.read?_eq {r : BitReader} (h : r.Bounded) (bits : Nat) : (r.read? bits).run = some (r.read bits) := by
  have hsize : 0 < wordBits := by decide
  rw [read?, read]
  split
  · rename_i hzero
    subst hzero
    rw [Nat.add_zero, if_neg (Nat.not_lt.2 h)]
    rfl
  rename_i hzero
  split
  · rfl
  rename_i hend
  have hpos := Nat.div_add_mod r.position wordBits
  obtain ⟨low, hlow, hlow'⟩ := getElem?_eq_word (r := r) (i := r.position / wordBits) (by
    rw [Nat.div_lt_iff_lt_mul hsize]
    omega)
  dsimp only
  rw [Checked.run_bind_read hlow]
  split
  · rename_i hreach
    -- The value reaches into the next word, so there is one.
    obtain ⟨high, hhigh, hhigh'⟩ := getElem?_eq_word (r := r) (i := r.position / wordBits + 1) (by
      refine Nat.lt_of_mul_lt_mul_right (a := wordBits) ?_
      rw [Nat.succ_mul, Nat.mul_comm]
      omega)
    rw [Checked.run_bind_read hhigh, hlow', hhigh']
    rfl
  · rename_i hfits
    rw [Checked.run_bind_read (rfl : some (0 : UInt32) = some 0), ← hlow',
      extract_of_fits hfits (r.word (r.position / wordBits + 1)) (0 : UInt32).toNat]
    rfl

theorem Bounded.of_readIds {α : Type} {make : Nat → Except IdError α} {bits : Nat} :
    ∀ {n : Nat} {r r' : BitReader} {ids : List α}, r.Bounded → readIds make bits n r = .ok (ids, r') → r'.Bounded
  | 0, _, _, _, h, hr => by
    cases hr
    exact h
  | n + 1, r, r', ids, _, hr => by
    rw [readIds, bind_eq_ok] at hr
    obtain ⟨⟨value, r₁⟩, hread, hr⟩ := hr
    dsimp only at hr
    split at hr
    · cases hr
    · obtain ⟨id, -, hr⟩ := bind_eq_ok.1 hr
      obtain ⟨⟨ids', r₂⟩, hids, hr⟩ := bind_eq_ok.1 hr
      cases hr
      exact Bounded.of_readIds (.of_read hread) hids

end BitReader

/-- Reads ids with checked words. -/
def readIds? {α : Type} (make : Nat → Except IdError α) (bits : Nat) :
    Nat → BitReader → Checked PackError (List α × BitReader)
  | 0, r => pure ([], r)
  | n + 1, r => do
    let (value, r) ← r.read? bits
    if value = 0 then throw (.invalidId value)
    let id ← ((make value).mapError .badId : Except PackError α)
    let (ids, r) ← readIds? make bits n r
    return (id :: ids, r)

theorem BitReader.Bounded.readIds?_eq {α : Type} (make : Nat → Except IdError α) (bits : Nat) :
    ∀ (n : Nat) {r : BitReader}, r.Bounded → (readIds? make bits n r).run = some (readIds make bits n r)
  | 0, _, _ => rfl
  | n + 1, r, h => by
    refine Checked.run_bind (h.read?_eq bits) fun ⟨value, r'⟩ hread => ?_
    dsimp only
    split
    · rfl
    · exact Checked.run_bind_lift fun _ _ => Checked.run_bind (readIds?_eq make bits n (.of_read hread)) fun _ _ => rfl

namespace PackedKey

/-! ## Keys -/

/-- Decodes a key with checked words. -/
def decode? (k : PackedKey) (s : PackingScheme) : Checked PackError Component := do
  let r : BitReader := { words := k.words }
  let (varCount, r) ← r.read? s.sizeBits
  let (clauseCount, r) ← r.read? s.sizeBits
  let (vars, r) ← readIds? Var.ofId s.varBits varCount r
  let (clauses, _) ← readIds? ClauseId.ofId s.clauseBits clauseCount r
  return { vars, clauses }

theorem decode?_eq (k : PackedKey) (s : PackingScheme) : (k.decode? s).run = some (k.decode s) := by
  have hstart : BitReader.Bounded { words := k.words } := Nat.zero_le _
  refine Checked.run_bind (hstart.read?_eq s.sizeBits) fun ⟨varCount, r₁⟩ h₁ => ?_
  refine Checked.run_bind (BitReader.Bounded.read?_eq (.of_read h₁) s.sizeBits) fun ⟨clauseCount, r₂⟩ h₂ => ?_
  have hbounded : r₂.Bounded := .of_read h₂
  refine Checked.run_bind (hbounded.readIds?_eq Var.ofId s.varBits varCount) fun ⟨vars, r₃⟩ h₃ => ?_
  exact Checked.run_bind ((hbounded.of_readIds h₃).readIds?_eq ClauseId.ofId s.clauseBits clauseCount) fun _ _ => rfl

/-- The number of variables that the key states under the scheme. -/
def varCount (k : PackedKey) (s : PackingScheme) : Nat := BitWriter.ofWords k.words % 2 ^ s.sizeBits

def clauseCount (k : PackedKey) (s : PackingScheme) : Nat := BitWriter.ofWords k.words / 2 ^ s.sizeBits % 2 ^ s.sizeBits

/-- The number in the place of the variable `i` of the key, counted from zero. -/
def varField (k : PackedKey) (s : PackingScheme) (i : Nat) : Nat :=
  BitWriter.ofWords k.words / 2 ^ (2 * s.sizeBits + s.varBits * i) % 2 ^ s.varBits

/-- The number in the place of the variable `i` is no variable's id, and is the first that is not. -/
structure TooLarge (k : PackedKey) (s : PackingScheme) (i : Nat) : Prop where
  lt : i < k.varCount s
  room : 2 * s.sizeBits + s.varBits * (i + 1) ≤ k.words.size * wordBits
  before : ∀ j < i, 0 < k.varField s j ∧ k.varField s j ≤ Var.maxId
  large : Var.maxId < k.varField s i

variable (k : PackedKey) (s : PackingScheme)

/-- The reader behind the two numbers of ids. -/
def idReader : BitReader := { words := k.words, position := 2 * s.sizeBits }

theorem field_idReader (i : Nat) : (k.idReader s).field s.varBits i = k.varField s i := by
  rw [BitReader.field, varField, idReader, BitReader.rest, Nat.div_div_eq_div_mul, ← Nat.pow_add]

/-- Decoding reads two numbers and then as many ids. -/
theorem decode_eq : k.decode s =
    if k.words.size * wordBits < 2 * s.sizeBits then .error .unexpectedEnd
    else do
      let (vars, r) ← readIds Var.ofId s.varBits (k.varCount s) (k.idReader s)
      let (clauses, _) ← readIds ClauseId.ofId s.clauseBits (k.clauseCount s) r
      return { vars, clauses } := by
  obtain ⟨r, hr⟩ : ∃ r : BitReader, r = { words := k.words } := ⟨_, rfl⟩
  have hrest : r.rest = BitWriter.ofWords k.words := by rw [hr, BitReader.rest, Nat.pow_zero, Nat.div_one]
  have hreader : (r.advance s.sizeBits).advance s.sizeBits = k.idReader s := by
    rw [BitReader.advance_advance, hr, BitReader.advance, idReader, Nat.zero_add, Nat.two_mul]
  have hsize : r.position = 0 ∧ r.words = k.words := by rw [hr]; exact ⟨rfl, rfl⟩
  rw [decode, ← hr]
  rcases r.read_cases s.sizeBits_le with ⟨h₁, hread₁⟩ | ⟨h₁, hread₁⟩
  · rcases (r.advance s.sizeBits).read_cases s.sizeBits_le with ⟨h₂, hread₂⟩ | ⟨h₂, hread₂⟩
    · rw [if_neg]
      · simp only [hread₁, hread₂, hreader, BitReader.rest_advance, hrest, bind, Except.bind]
        rfl
      · rw [BitReader.position_advance, BitReader.words_advance, hsize.1, hsize.2] at h₂
        omega
    · rw [if_pos]
      · simp only [hread₁, hread₂, bind, Except.bind]
      · rw [BitReader.position_advance, BitReader.words_advance, hsize.1, hsize.2] at h₂
        omega
  · rw [if_pos]
    · simp only [hread₁, bind, Except.bind]
    · rw [hsize.1, hsize.2] at h₁
      omega

variable {k s} {reason : IdError}

theorem tooLarge_iff {i : Nat} : i < k.varCount s ∧ BitReader.BadAt Var.ofId s.varBits (k.idReader s) reason i ↔
    k.TooLarge s i ∧ reason = .variableTooLarge (k.varField s i) := by
  constructor
  · rintro ⟨hlt, hroom, hbefore, hzero, hbad⟩
    simp only [field_idReader] at hbefore hzero hbad
    obtain ⟨hlarge, rfl⟩ := (Var.ofId_eq_error hzero).1 hbad
    refine ⟨⟨hlt, hroom, fun j hj => ?_, hlarge⟩, rfl⟩
    obtain ⟨hj, v, hv⟩ := hbefore j hj
    exact ⟨Nat.pos_of_ne_zero hj, (Var.ofId_eq_ok hv).2⟩
  · rintro ⟨⟨hlt, hroom, hbefore, hlarge⟩, rfl⟩
    have hzero : k.varField s i ≠ 0 := Nat.ne_of_gt (Nat.zero_lt_of_lt hlarge)
    refine ⟨hlt, hroom, fun j hj => ?_, ?_, ?_⟩ <;> rw [field_idReader]
    · obtain ⟨hpos, hmax⟩ := hbefore j hj
      exact ⟨Nat.ne_of_gt hpos, ⟨_, hpos⟩, Var.ofId_id (v := ⟨_, hpos⟩) hmax⟩
    · exact hzero
    · exact (Var.ofId_eq_error hzero).2 ⟨hlarge, rfl⟩

/-- Decoding gets to a number that no variable has exactly when the first unusable field is too large. -/
theorem decode_eq_badId :
    k.decode s = .error (.badId reason) ↔ ∃ i, k.TooLarge s i ∧ reason = .variableTooLarge (k.varField s i) := by
  rw [decode_eq]
  split
  · rename_i hend
    refine ⟨nofun, fun ⟨_, h, _⟩ => ?_⟩
    have hroom := h.room
    omega
  · rw [bind_eq_error, BitReader.readIds_eq_badId (s.varBits_le.trans s.sizeBits_le)]
    simp only [← tooLarge_iff]
    refine or_iff_left ?_
    rintro ⟨⟨vars, r⟩, -, h⟩
    rcases bind_eq_error.1 h with h | ⟨_, -, h⟩
    · exact BitReader.readIds_clauses_ne_badId (s.clauseBits_le.trans s.sizeBits_le) _ r reason h
    · cases h

/-- Decoding gives a component of ids that variables and clauses can have, or ends early. -/
theorem decode_cases (k : PackedKey) (s : PackingScheme) :
    (∃ c, k.decode s = .ok c ∧ (∀ v ∈ c.vars, v.id ≤ Var.maxId) ∧ ∀ j ∈ c.clauses, j.id ≤ ClauseId.maxId) ∨
      EndsEarly (k.decode s) := by
  rw [decode_eq]
  split
  · exact .inr (.inl rfl)
  rcases BitReader.readIds_cases Var.ofId (s.varBits_le.trans s.sizeBits_le) (k.varCount s) (k.idReader s) with
    ⟨vars, r, hvars, hv⟩ | h
  · rcases BitReader.readIds_cases ClauseId.ofId (s.clauseBits_le.trans s.sizeBits_le) (k.clauseCount s) r with
      ⟨clauses, r', hclauses, hj⟩ | h
    · refine .inl ⟨{ vars, clauses }, ?_, fun v hmem => ?_, fun j hmem => ?_⟩
      · simp only [hvars, hclauses, bind, Except.bind]
        rfl
      · obtain ⟨id, hid⟩ := hv v hmem
        obtain ⟨rfl, hmax⟩ := Var.ofId_eq_ok hid
        exact hmax
      · obtain ⟨id, hid⟩ := hj j hmem
        obtain ⟨rfl, hmax⟩ := ClauseId.ofId_eq_ok hid
        exact hmax
    · rw [hvars]
      exact .inr (h.bind _)
  · exact .inr (h.bind _)

/-- A component whose clause id, read as part of a variable's id, is past the largest one. -/
def farClause : Component := { vars := [⟨1, by decide⟩], clauses := [⟨536870912, by decide⟩] }

/-- The key of the component under a scheme for one variable, and a scheme that gives variables a whole word. -/
theorem encode_farClause :
    ∃ (made s : PackingScheme) (k : PackedKey), PackingScheme.ofMax 1 4294967294 = .ok made ∧
      PackingScheme.ofMax 4294967295 0 = .ok s ∧ encode made farClause = .ok k ∧
      k.decode s = .error (.badId (.variableTooLarge 1073741825)) ∧ k.varCount s = 1 ∧
      2 * s.sizeBits + s.varBits ≤ k.words.size * wordBits ∧ k.varField s 0 = 1073741825 := by
  have hcalls : (do
      let made ← PackingScheme.ofMax 1 4294967294
      let s ← PackingScheme.ofMax 4294967295 0
      let k ← encode made farClause
      return (decide (k.decode s = .error (.badId (.variableTooLarge 1073741825))), k.varCount s,
        decide (2 * s.sizeBits + s.varBits ≤ k.words.size * wordBits), k.varField s 0)) =
        (.ok (true, 1, true, 1073741825) : Except PackError _) := by decide +kernel
  simp only [bind_eq_ok] at hcalls
  obtain ⟨made, hmade, s, hs, k, hk, h⟩ := hcalls
  injection h with h
  simp only [Prod.mk.injEq, decide_eq_true_eq] at h
  obtain ⟨hdecode, hcount, hroom, hfield⟩ := h
  exact ⟨made, s, k, hmade, hs, hk, hdecode, hcount, hroom, hfield⟩

/-- Decoding a key of any bits under any scheme looks at no word that is not there, and gives a component of
ids that variables and clauses can have, or reports that the bits are at an end or hold the id zero. The
exception is a number past the largest id in the place of a variable, which is met before anything is
reported: then no variable can be made. Schemes for variables that exist have no room for such a number. -/
theorem decode_outcome (k : PackedKey) (s : PackingScheme) {maxVar maxClause : Nat}
    (hs : PackingScheme.ofMax maxVar maxClause = .ok s) :
    (k.decode? s).run = some (k.decode s) ∧
    ((∃ c, k.decode s = .ok c ∧ (∀ v ∈ c.vars, 0 < v.id ∧ v.id ≤ Var.maxId) ∧
        ∀ j ∈ c.clauses, 0 < j.id ∧ j.id ≤ ClauseId.maxId) ∨
      k.decode s = .error .unexpectedEnd ∨ k.decode s = .error (.invalidId 0) ∨
      ∃ i, k.TooLarge s i ∧ k.decode s = .error (.badId (.variableTooLarge (k.varField s i)))) ∧
    (∀ i, k.TooLarge s i → k.decode s = .error (.badId (.variableTooLarge (k.varField s i)))) ∧
    (maxVar ≤ Var.maxId → ∀ i, ¬ k.TooLarge s i) := by
  refine ⟨k.decode?_eq s, ?_, fun i hi => decode_eq_badId.2 ⟨i, hi, rfl⟩, fun hmax i hi => ?_⟩
  · rcases k.decode_cases s with ⟨c, hc, hvars, hclauses⟩ | h | h | ⟨reason, h⟩
    · exact .inl ⟨c, hc, fun v hv => ⟨v.id_pos, hvars v hv⟩, fun j hj => ⟨j.id_pos, hclauses j hj⟩⟩
    · exact .inr (.inl h)
    · exact .inr (.inr (.inl h))
    · obtain ⟨i, hi, rfl⟩ := decode_eq_badId.1 h
      exact .inr (.inr (.inr ⟨i, hi, h⟩))
  · have hbits : s.varBits ≤ 30 := by
      rw [PackingScheme.ofMax] at hs
      split at hs
      · cases hs
        exact bitLength_le_of_lt (Nat.lt_of_le_sub_one (by decide) hmax)
      · cases hs
    have hlt : k.varField s i < 2 ^ s.varBits := Nat.mod_lt _ (Nat.two_pow_pos _)
    have hpow : 2 ^ s.varBits ≤ 2 ^ 30 := Nat.pow_le_pow_right (by decide) hbits
    have hlarge := hi.large
    simp only [Var.maxId, Nat.one_shiftLeft] at hlarge
    omega

theorem decode_outcome_farClause :
    ∃ (made s : PackingScheme) (k : PackedKey), PackingScheme.ofMax 1 4294967294 = .ok made ∧
      PackingScheme.ofMax 4294967295 0 = .ok s ∧ encode made farClause = .ok k ∧
      k.TooLarge s 0 ∧ k.varField s 0 = 1073741825 ∧
      (k.decode? s).run = some (.error (.badId (.variableTooLarge (k.varField s 0)))) := by
  obtain ⟨made, s, k, hmade, hs, hk, -, hcount, hroom, hfield⟩ := encode_farClause
  have hlarge : k.TooLarge s 0 := ⟨by omega, by simpa using hroom, by simp, by rw [hfield]; decide⟩
  obtain ⟨hchecked, -, hlarge', -⟩ := decode_outcome k s hs
  exact ⟨made, s, k, hmade, hs, hk, hlarge, hfield, by rw [hchecked, hlarge' 0 hlarge]⟩

/-- A key that was made with one scheme and is decoded with another does not always give a component or a
report that the bits are at an end or hold an id that is not valid. -/
theorem not_forall_decode_reports :
    ¬ ∀ (maxVar maxClause maxVar' maxClause' : Nat) (made s : PackingScheme) (c : Component) (k : PackedKey),
      PackingScheme.ofMax maxVar maxClause = .ok made → maxVar' < 2 ^ 63 → maxClause' < 2 ^ 63 →
      PackingScheme.ofMax maxVar' maxClause' = .ok s → encode made c = .ok k →
      (∃ d, k.decode s = .ok d ∧ (∀ v ∈ d.vars, 0 < v.id ∧ v.id ≤ Var.maxId) ∧ ∀ j ∈ d.clauses, 0 < j.id) ∨
        k.decode s = .error .unexpectedEnd ∨ ∃ id, k.decode s = .error (.invalidId id) := by
  intro hall
  obtain ⟨made, s, k, hmade, hs, hk, hdecode, -⟩ := encode_farClause
  rcases hall 1 4294967294 4294967295 0 made s farClause k hmade (by decide) (by decide) hs hk with
    ⟨d, hd, -⟩ | h | ⟨id, h⟩
  · cases hdecode.symm.trans hd
  · cases hdecode.symm.trans h
  · cases hdecode.symm.trans h

end PackedKey

end ModelCount
