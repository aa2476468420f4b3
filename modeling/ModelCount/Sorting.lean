/-
Stable insertion sort by a decidable order, with the facts that describe it: the result is a
permutation of the input, it is ordered, and what ties keeps its order.
-/

namespace ModelCount

variable {α : Type}

/-- Inserts before the first element that `x` may precede. -/
def insertBy (le : α → α → Bool) (x : α) : List α → List α
  | [] => [x]
  | y :: ys => if le x y then x :: y :: ys else y :: insertBy le x ys

/-- Sorts so that `le` holds from left to right; elements that `le` does not tell apart keep their
order. -/
def sortBy (le : α → α → Bool) (xs : List α) : List α := xs.foldr (insertBy le) []

/-- Ids in increasing order. -/
def sortIds (ids : List Nat) : List Nat := sortBy (fun a b => decide (a ≤ b)) ids

theorem insertBy_perm (le : α → α → Bool) (x : α) : ∀ ys, (insertBy le x ys).Perm (x :: ys)
  | [] => .refl _
  | y :: ys => by
    simp only [insertBy]
    split
    · exact .refl _
    · exact ((insertBy_perm le x ys).cons y).trans (.swap x y ys)

theorem sortBy_perm (le : α → α → Bool) : ∀ xs, (sortBy le xs).Perm xs
  | [] => .refl _
  | x :: xs => (insertBy_perm le x (sortBy le xs)).trans ((sortBy_perm le xs).cons x)

theorem insertBy_pairwise {le : α → α → Bool} (total : ∀ a b, le a b = true ∨ le b a = true)
    (trans : ∀ a b c, le a b = true → le b c = true → le a c = true) (x : α) :
    ∀ ys, ys.Pairwise (le · · = true) → (insertBy le x ys).Pairwise (le · · = true)
  | [], _ => by simp [insertBy]
  | y :: ys, h => by
    simp only [insertBy]
    split
    · rename_i hxy
      refine List.pairwise_cons.2 ⟨fun z hz => ?_, h⟩
      rcases List.mem_cons.1 hz with rfl | hz
      · exact hxy
      · exact trans _ _ _ hxy ((List.pairwise_cons.1 h).1 z hz)
    · rename_i hxy
      have hyx : le y x = true := (total x y).resolve_left hxy
      refine List.pairwise_cons.2 ⟨fun z hz => ?_, insertBy_pairwise total trans x ys (List.pairwise_cons.1 h).2⟩
      rcases List.mem_cons.1 ((insertBy_perm le x ys).mem_iff.1 hz) with rfl | hz
      · exact hyx
      · exact (List.pairwise_cons.1 h).1 z hz

theorem sortBy_pairwise {le : α → α → Bool} (total : ∀ a b, le a b = true ∨ le b a = true)
    (trans : ∀ a b c, le a b = true → le b c = true → le a c = true) :
    ∀ xs, (sortBy le xs).Pairwise (le · · = true)
  | [] => .nil
  | x :: xs => insertBy_pairwise total trans x _ (sortBy_pairwise total trans xs)

/-- `x` stood before the elements it is inserted into, and stays before those it ties with. -/
theorem insertBy_stable {le : α → α → Bool} (total : ∀ a b, le a b = true ∨ le b a = true)
    (trans : ∀ a b c, le a b = true → le b c = true → le a c = true) {r : α → α → Prop} (x : α) :
    ∀ ys, (∀ y ∈ ys, r x y) → ys.Pairwise (fun a b => le a b = true ∧ (le b a = true → r a b)) →
      (insertBy le x ys).Pairwise fun a b => le a b = true ∧ (le b a = true → r a b)
  | [], _, _ => by simp [insertBy]
  | y :: ys, hr, h => by
    obtain ⟨hy, hys⟩ := List.pairwise_cons.1 h
    simp only [insertBy]
    split
    · rename_i hxy
      refine List.pairwise_cons.2 ⟨fun z hz => ⟨?_, fun _ => hr z hz⟩, h⟩
      rcases List.mem_cons.1 hz with rfl | hz
      · exact hxy
      · exact trans _ _ _ hxy (hy z hz).1
    · rename_i hxy
      have hyx : le y x = true := (total x y).resolve_left hxy
      refine List.pairwise_cons.2 ⟨fun z hz => ?_,
        insertBy_stable total trans x ys (fun z hz => hr z (List.mem_cons_of_mem y hz)) hys⟩
      rcases List.mem_cons.1 ((insertBy_perm le x ys).mem_iff.1 hz) with rfl | hz
      · exact ⟨hyx, fun hle => absurd hle hxy⟩
      · exact hy z hz

/-- Elements that tie are left in the order in which they came. -/
theorem sortBy_stable {le : α → α → Bool} (total : ∀ a b, le a b = true ∨ le b a = true)
    (trans : ∀ a b c, le a b = true → le b c = true → le a c = true) {r : α → α → Prop} :
    ∀ xs, xs.Pairwise r → (sortBy le xs).Pairwise fun a b => le a b = true ∧ (le b a = true → r a b)
  | [], _ => .nil
  | x :: xs, h => by
    obtain ⟨hx, hxs⟩ := List.pairwise_cons.1 h
    exact insertBy_stable total trans x _ (fun y hy => hx y ((sortBy_perm le xs).mem_iff.1 hy))
      (sortBy_stable total trans xs hxs)

end ModelCount
