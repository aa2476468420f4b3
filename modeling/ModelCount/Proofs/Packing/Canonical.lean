/-
Packed keys are canonical. A component has a key if and only if its numbers and its ids are within the
widths of the scheme, the key takes no more words than its bits need, and two components have one key if
and only if they have the same variables and the same clauses. What is read back is the component in
increasing order.
-/
import Mathlib.Algebra.Order.Floor.Div
import ModelCount.Proofs.Packing.Decode

namespace ModelCount

/-! ## Sorting -/

theorem map_insertBy {α β : Type} (f : α → β) (le : β → β → Bool) (x : α) : ∀ ys : List α,
    (insertBy (fun a b => le (f a) (f b)) x ys).map f = insertBy le (f x) (ys.map f)
  | [] => rfl
  | y :: ys => by
    simp only [insertBy, List.map_cons]
    split
    · rfl
    · rw [List.map_cons, map_insertBy f le x ys]

/-- Sorting by what `f` gives sorts the images. -/
theorem map_sortBy {α β : Type} (f : α → β) (le : β → β → Bool) : ∀ xs : List α,
    (sortBy (fun a b => le (f a) (f b)) xs).map f = sortBy le (xs.map f)
  | [] => rfl
  | x :: xs => by
    show (insertBy _ x (sortBy _ xs)).map f = insertBy le (f x) (sortBy le (xs.map f))
    rw [map_insertBy, map_sortBy f le xs]

/-- The order of ids does not matter when they are sorted. -/
theorem sortIds_congr {ids ids' : List Nat} (h : ids.Perm ids') : sortIds ids = sortIds ids' :=
  (((sortIds_perm ids).trans h).trans (sortIds_perm ids').symm).eq_of_pairwise
    (fun _ _ _ _ => Nat.le_antisymm) (sortIds_pairwise ids) (sortIds_pairwise ids')

namespace Component

/-- The ids in increasing order, and no entry. -/
def sorted (c : Component) : Component where
  vars := sortBy (fun v w => decide (v.id ≤ w.id)) c.vars
  clauses := sortBy (fun j k => decide (j.id ≤ k.id)) c.clauses

theorem map_vars_sorted (c : Component) : c.sorted.vars.map Var.id = sortIds (c.vars.map Var.id) :=
  map_sortBy Var.id (fun a b => decide (a ≤ b)) c.vars

theorem map_clauses_sorted (c : Component) :
    c.sorted.clauses.map ClauseId.id = sortIds (c.clauses.map ClauseId.id) :=
  map_sortBy ClauseId.id (fun a b => decide (a ≤ b)) c.clauses

theorem vars_sorted_perm (c : Component) : c.sorted.vars.Perm c.vars := sortBy_perm _ _

theorem clauses_sorted_perm (c : Component) : c.sorted.clauses.Perm c.clauses := sortBy_perm _ _

theorem vars_sorted_pairwise (c : Component) : c.sorted.vars.Pairwise fun v w => v.id ≤ w.id :=
  List.pairwise_map.1 (c.map_vars_sorted ▸ sortIds_pairwise _)

theorem clauses_sorted_pairwise (c : Component) : c.sorted.clauses.Pairwise fun j k => j.id ≤ k.id :=
  List.pairwise_map.1 (c.map_clauses_sorted ▸ sortIds_pairwise _)

end Component

/-! ## When writing fails -/

namespace BitWriter

/-- The first value that is too wide is the one that is refused. -/
theorem writeAll_tooWide {values : List Nat} {bits : Nat} (h : ¬ ∀ v ∈ values, v < 2 ^ bits) : ∀ w : BitWriter,
    ∃ v, 2 ^ bits ≤ v ∧ w.writeAll values bits = .error (.valueTooWide v bits) := by
  induction values with
  | nil => exact (h (by simp)).elim
  | cons v values ih =>
    intro w
    by_cases hv : v < 2 ^ bits
    · obtain ⟨w₁, h₁⟩ := w.write_isOk hv
      obtain ⟨u, hu, hall⟩ := ih (fun hvs => h (List.forall_mem_cons.2 ⟨hv, hvs⟩)) w₁
      exact ⟨u, hu, by rw [writeAll, List.foldlM_cons, h₁]; exact hall⟩
    · have hle := Nat.le_of_not_lt hv
      exact ⟨v, hle, by rw [writeAll, List.foldlM_cons, w.write_tooWide hle]; rfl⟩

/-- No word is begun that no bit is in. -/
theorem size_finish {w : BitWriter} (hw : w.Tight) : w.finish.size = w.length ⌈/⌉ wordBits := by
  have hlt := hw.endBits_lt
  have hpos : 0 < wordBits := by decide
  rw [Nat.ceilDiv_eq_add_pred_div, finish, length, fullWords]
  split
  · rename_i h0
    rw [h0, Nat.add_zero, Nat.add_sub_assoc hpos, Nat.mul_add_div hpos, Nat.div_eq_of_lt (by omega), Nat.add_zero]
  · rename_i h0
    have hlast : (w.endBits + (wordBits - 1)) / wordBits = 1 :=
      Nat.div_eq_of_lt_le (by omega) (by omega)
    rw [Nat.add_sub_assoc hpos, Nat.add_assoc, Nat.mul_add_div hpos, hlast, Nat.sub_add_cancel (hw.nonempty h0)]

end BitWriter

/-! ## Keys -/

namespace PackedKey

variable {s : PackingScheme} {c d : Component}

theorem fitsIn_of_encode {k : PackedKey} (h : encode s c = .ok k) : c.FitsIn s := by
  obtain ⟨-, hvlen, hklen, hv, hk⟩ := ofWords_of_encode h
  exact ⟨hvlen, hklen, List.forall_mem_map.1 (forall_mem_sortIds.1 hv), List.forall_mem_map.1 (forall_mem_sortIds.1 hk)⟩

/-- A component that does not fit has a value that is too wide. -/
theorem encode_tooWide (h : ¬ c.FitsIn s) :
    ∃ value bits, 2 ^ bits ≤ value ∧ encode s c = .error (.valueTooWide value bits) := by
  simp only [encode, length_sortIds, List.length_map]
  -- The values are written in turn, so the first one that does not fit is found.
  by_cases hvlen : c.vars.length < 2 ^ s.sizeBits
  swap
  · exact ⟨_, _, Nat.le_of_not_lt hvlen, by rw [BitWriter.write_tooWide _ (Nat.le_of_not_lt hvlen)]; rfl⟩
  obtain ⟨w₁, h₁⟩ := ({} : BitWriter).write_isOk hvlen
  by_cases hklen : c.clauses.length < 2 ^ s.sizeBits
  swap
  · refine ⟨_, _, Nat.le_of_not_lt hklen, ?_⟩
    simp only [h₁, BitWriter.write_tooWide _ (Nat.le_of_not_lt hklen), bind, Except.bind]
  obtain ⟨w₂, h₂⟩ := w₁.write_isOk hklen
  by_cases hv : ∀ i ∈ sortIds (c.vars.map Var.id), i < 2 ^ s.varBits
  swap
  · obtain ⟨value, hvalue, h₃⟩ := BitWriter.writeAll_tooWide hv w₂
    exact ⟨_, _, hvalue, by simp only [h₁, h₂, h₃, bind, Except.bind]⟩
  obtain ⟨w₃, h₃⟩ := BitWriter.writeAll_isOk hv w₂
  have hk : ¬ ∀ i ∈ sortIds (c.clauses.map ClauseId.id), i < 2 ^ s.clauseBits := fun hk =>
    h ⟨hvlen, hklen, List.forall_mem_map.1 (forall_mem_sortIds.1 hv), List.forall_mem_map.1 (forall_mem_sortIds.1 hk)⟩
  obtain ⟨value, hvalue, h₄⟩ := BitWriter.writeAll_tooWide hk w₃
  exact ⟨_, _, hvalue, by simp only [h₁, h₂, h₃, h₄, bind, Except.bind]⟩

theorem encode_isOk_iff : (∃ k, encode s c = .ok k) ↔ c.FitsIn s :=
  ⟨fun ⟨_, h⟩ => fitsIn_of_encode h, encode_isOk_of_fitsIn⟩

theorem size_words_of_encode {k : PackedKey} (h : encode s c = .ok k) :
    k.words.size =
      (2 * s.sizeBits + s.varBits * c.vars.length + s.clauseBits * c.clauses.length) ⌈/⌉ wordBits := by
  obtain ⟨w, htight, hwords, -, hlength, -⟩ := writer_of_encode h
  rw [hwords, BitWriter.size_finish htight, hlength]

theorem encode_congr (hv : c.vars.Perm d.vars) (hk : c.clauses.Perm d.clauses) : encode s c = encode s d := by
  simp only [encode, sortIds_congr (hv.map Var.id), sortIds_congr (hk.map ClauseId.id)]

theorem decode_encode_sorted {k : PackedKey} (h : encode s c = .ok k) (hmax : ∀ v ∈ c.vars, v.id ≤ Var.maxId) :
    k.decode s = .ok c.sorted :=
  decode_encode h c.map_vars_sorted c.map_clauses_sorted fun v hv => hmax v (c.vars_sorted_perm.mem_iff.1 hv)

/-- Packed keys are canonical and can be read back. A component has a key if and only if its numbers and
its ids fit, a value that does not fit is refused as too wide, and ids within the maxima of the scheme
that occur once fit always. The words of a key are as many as its bits need. Reading a key back gives the
variables and the clauses in increasing order, provided that no id is past the largest one a variable may
have, and two keys are equal if and only if the components have the same variables and the same clauses,
each as often. -/
theorem encode_canonical {maxVar maxClause : Nat} (hs : PackingScheme.ofMax maxVar maxClause = .ok s) :
    (∀ c, (∃ k, encode s c = .ok k) ↔ c.FitsIn s) ∧
    (∀ c, ¬ c.FitsIn s → ∃ value bits, 2 ^ bits ≤ value ∧ encode s c = .error (.valueTooWide value bits)) ∧
    (∀ c : Component, c.vars.Nodup → c.clauses.Nodup → (∀ v ∈ c.vars, v.id ≤ maxVar) →
      (∀ j ∈ c.clauses, j.id ≤ maxClause) → ∃ k, encode s c = .ok k) ∧
    (∀ c k, encode s c = .ok k → k.words.size =
      (2 * s.sizeBits + s.varBits * c.vars.length + s.clauseBits * c.clauses.length) ⌈/⌉ wordBits) ∧
    (∀ c k, encode s c = .ok k → (∀ v ∈ c.vars, v.id ≤ Var.maxId) → ∃ d, k.decode s = .ok d ∧
      d.vars.Perm c.vars ∧ (d.vars.Pairwise fun v w => v.id ≤ w.id) ∧
      d.clauses.Perm c.clauses ∧ (d.clauses.Pairwise fun i j => i.id ≤ j.id) ∧ d.entry = none) ∧
    ∀ c d k l, encode s c = .ok k → encode s d = .ok l →
      (k = l ↔ c.vars.Perm d.vars ∧ c.clauses.Perm d.clauses) := by
  refine ⟨fun c => encode_isOk_iff, fun c => encode_tooWide, fun c hvn hkn hv hk => encode_isOk hs hv hk hvn hkn,
    fun c k => size_words_of_encode, fun c k h hmax => ?_, fun c d k l hc hd => ⟨fun hkl => ?_, fun hperm => ?_⟩⟩
  · exact ⟨c.sorted, decode_encode_sorted h hmax, c.vars_sorted_perm, c.vars_sorted_pairwise, c.clauses_sorted_perm,
      c.clauses_sorted_pairwise, rfl⟩
  · exact perm_of_encode hc hd (congrArg words hkl)
  · rw [encode_congr hperm.1 hperm.2, hd] at hc
    cases hc
    rfl

/-- Three variables of two bits, four clauses of six bits and two sizes of six bits take two words; the
clause 64 has no place. -/
theorem encode_canonical_twoWords :
    let c : Component := {
      vars := [⟨3, by decide⟩, ⟨1, by decide⟩, ⟨2, by decide⟩]
      clauses := [⟨9, by decide⟩, ⟨60, by decide⟩, ⟨4, by decide⟩, ⟨17, by decide⟩] }
    ∃ s k, PackingScheme.ofMax 3 60 = .ok s ∧ encode s c = .ok k ∧ k.words.size = 2 ∧
      (∃ d, k.decode s = .ok d ∧ d.vars.Perm c.vars ∧ (d.vars.Pairwise fun v w => v.id ≤ w.id) ∧
        d.clauses.Perm c.clauses ∧ (d.clauses.Pairwise fun i j => i.id ≤ j.id) ∧ d.entry = none) ∧
      encode s { c with vars := c.vars.reverse } = .ok k ∧
      ∃ value bits, 2 ^ bits ≤ value ∧ encode s { vars := [], clauses := [⟨64, by decide⟩] } =
        .error (.valueTooWide value bits) := by
  intro c
  have hcalls : (do
      let s ← PackingScheme.ofMax 3 60
      let k ← encode s c
      return (s.varBits, s.clauseBits, s.sizeBits)) = (.ok (2, 6, 6) : Except PackError _) := by decide +kernel
  simp only [bind_eq_ok] at hcalls
  obtain ⟨s, hs, k, hk, h⟩ := hcalls
  injection h with h
  simp only [Prod.mk.injEq] at h
  obtain ⟨hvarBits, hclauseBits, hsizeBits⟩ := h
  obtain ⟨hok, hwide, -, hsize, hdecode, hequal⟩ := encode_canonical hs
  have hfits := (hok c).1 ⟨k, hk⟩
  have hperm : c.vars.reverse.Perm c.vars := List.reverse_perm _
  obtain ⟨l, hl⟩ := (hok { c with vars := c.vars.reverse }).2
    ⟨by simpa using hfits.vars_length, hfits.clauses_length, fun v hv => hfits.var_id v (hperm.mem_iff.1 hv),
      hfits.clause_id⟩
  refine ⟨s, k, hs, hk, ?_, hdecode c k hk (by decide), ?_, hwide _ fun hfit => ?_⟩
  · rw [hsize c k hk, hvarBits, hclauseBits, hsizeBits]
    decide
  · rw [hl, (hequal _ _ l k hl hk).2 ⟨hperm, .refl _⟩]
  · have hlt := hfit.clause_id _ (List.mem_singleton_self _)
    rw [hclauseBits] at hlt
    exact absurd hlt (by decide)

end PackedKey

end ModelCount
