/-
Tables with one cell per dense index. Reading beyond the table gives the default value and writing
there changes nothing, so no operation fails.
-/

namespace ModelCount

structure Table (α : Type) where
  cells : Array α
  deriving DecidableEq, Repr

namespace Table

variable {α : Type}

instance : Inhabited (Table α) := ⟨⟨#[]⟩⟩

def replicate (n : Nat) (x : α) : Table α := ⟨Array.replicate n x⟩

def size (t : Table α) : Nat := t.cells.size

def toList (t : Table α) : List α := t.cells.toList

def set (t : Table α) (i : Nat) (x : α) : Table α := ⟨t.cells.setIfInBounds i x⟩

variable [Inhabited α]

def get (t : Table α) (i : Nat) : α := t.cells.getD i default

def modify (t : Table α) (i : Nat) (f : α → α) : Table α := t.set i (f (t.get i))

omit [Inhabited α] in
@[simp] theorem size_replicate (n : Nat) (x : α) : (replicate n x).size = n := by
  simp [replicate, size]

omit [Inhabited α] in
@[simp] theorem size_set (t : Table α) (i : Nat) (x : α) : (t.set i x).size = t.size := by
  simp [set, size]

@[simp] theorem size_modify (t : Table α) (i : Nat) (f : α → α) : (t.modify i f).size = t.size := by
  simp [modify]

theorem get_set (t : Table α) (i j : Nat) (x : α) :
    (t.set i x).get j = if i = j ∧ j < t.size then x else t.get j := by
  simp only [get, set, size, Array.getD_eq_getD_getElem?, Array.getElem?_setIfInBounds]
  by_cases h : i = j
  · subst h
    by_cases hi : i < t.cells.size
    · simp [hi]
    · simp [hi]
  · simp [h]

theorem get_modify (t : Table α) (i j : Nat) (f : α → α) :
    (t.modify i f).get j = if i = j ∧ j < t.size then f (t.get j) else t.get j := by
  rw [modify, get_set]
  split
  · rename_i h; rw [h.1]
  · rfl

theorem get_replicate (n : Nat) (x : α) (i : Nat) :
    (replicate n x).get i = if i < n then x else default := by
  simp only [get, replicate, Array.getD_eq_getD_getElem?, Array.getElem?_replicate]
  split <;> rfl

theorem get_of_size_le (t : Table α) {i : Nat} (h : t.size ≤ i) : t.get i = default := by
  simp [get, Array.getD_eq_getD_getElem?, Array.getElem?_eq_none h]

omit [Inhabited α] in
theorem set_set (t : Table α) (i : Nat) (x y : α) : (t.set i x).set i y = t.set i y := by
  simp [set]

theorem set_get (t : Table α) (i : Nat) : t.set i (t.get i) = t := by
  obtain ⟨cells⟩ := t
  by_cases h : i < cells.size <;> simp [set, get, Array.getD_eq_getD_getElem?, h, Array.setIfInBounds]

theorem toList_eq_map_get (t : Table α) : t.toList = (List.range t.size).map t.get := by
  refine List.ext_getElem (by simp [toList, size]) fun i hi _ => ?_
  have hi' : i < t.cells.size := by simpa [toList] using hi
  simp [toList, get, Array.getD_eq_getD_getElem?, hi']

/-- Two tables of one size with equal cells are equal. -/
theorem ext_get {t u : Table α} (hs : t.size = u.size) (h : ∀ i, i < t.size → t.get i = u.get i) :
    t = u := by
  obtain ⟨a⟩ := t; obtain ⟨b⟩ := u
  simp only [size] at hs
  congr 1
  refine Array.ext hs fun i h1 h2 => ?_
  have := h i h1
  simpa [get, Array.getD_eq_getD_getElem?, h1, h2] using this

end Table

end ModelCount
