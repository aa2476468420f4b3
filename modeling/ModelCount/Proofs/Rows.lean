/-
Rows in a pool. However they are stored, rows that tile their pool are read back as they were given. Rows may
be stored one after the other, with starts that come from their lengths, or from entries that are counted first
and then put into their rows front to back: no entry leaves the place that its row has in the pool.
-/
import Mathlib.Algebra.BigOperators.Group.List.Basic
import Mathlib.Algebra.Ring.Nat
import Mathlib.Data.List.Flatten
import Mathlib.Data.List.Induction
import Mathlib.Data.List.Nodup
import ModelCount.Rows

namespace ModelCount.Rows

variable {α : Type}

/-! ## Rows that tile a pool -/

/-- The number of elements before row `i`. -/
def offset (rows : List (List α)) (i : Nat) : Nat := (rows.take i).flatten.length

@[simp] theorem offset_zero (rows : List (List α)) : offset rows 0 = 0 := rfl

theorem offset_succ {rows : List (List α)} {i : Nat} (hi : i < rows.length) :
    offset rows (i + 1) = offset rows i + rows[i].length := by
  rw [offset, offset, List.take_succ_eq_append_getElem hi, List.flatten_append, List.length_append,
    List.flatten_singleton]

theorem offset_length (rows : List (List α)) : offset rows rows.length = rows.flatten.length := by
  rw [offset, List.take_length]

theorem offset_le_offset (rows : List (List α)) {i j : Nat} (h : i ≤ j) : offset rows i ≤ offset rows j :=
  ((List.take_sublist_take_left h).flatten).length_le

theorem offset_le (rows : List (List α)) (i : Nat) : offset rows i ≤ rows.flatten.length :=
  ((List.take_sublist i rows).flatten).length_le

/-- The rows tile the pool: row `i` starts behind the rows before it. -/
structure Tiles (r : Rows α) (rows : List (List α)) : Prop where
  pool : r.pool.toList = rows.flatten
  starts : r.starts.toList = (List.range (rows.length + 1)).map (offset rows)

theorem tiles_push {r : Rows α} {rows : List (List α)} (h : Tiles r rows) (row : List α) :
    Tiles (r.push row) (rows ++ [row]) := by
  have hsize : r.pool.size = rows.flatten.length := by rw [← h.pool, Array.length_toList]
  refine ⟨by simp [push, h.pool], ?_⟩
  simp only [push, Array.toList_push, h.starts, List.length_append, List.length_singleton]
  rw [List.range_succ (n := rows.length + 1), List.map_append]
  congr 1
  · refine List.map_congr_left fun i hi => ?_
    rw [offset, offset, List.take_append_of_le_length (by have := List.mem_range.1 hi; omega)]
  · simp [hsize, offset, List.take_of_length_le]

theorem tiles_ofLists (rows : List (List α)) : Tiles (ofLists rows) rows := by
  induction rows using List.reverseRecOn with
  | nil => exact ⟨rfl, rfl⟩
  | append_singleton rows row ih =>
    rw [ofLists, List.foldl_append]
    exact tiles_push ih row

/-- There is one way to store rows so that they tile their pool. -/
theorem Tiles.eq_ofLists {r : Rows α} {rows : List (List α)} (h : Tiles r rows) : r = ofLists rows := by
  obtain ⟨starts, pool⟩ := r
  have hl := tiles_ofLists rows
  have hstarts : starts = (ofLists rows).starts := Array.toList_inj.1 (h.starts.trans hl.starts.symm)
  have hpool : pool = (ofLists rows).pool := Array.toList_inj.1 (h.pool.trans hl.pool.symm)
  rw [hstarts, hpool]

theorem start_of_le {r : Rows α} {rows : List (List α)} (h : Tiles r rows) {i : Nat} (hi : i ≤ rows.length) :
    r.start i = offset rows i := by
  simp only [start, Array.getD_eq_getD_getElem?, ← Array.getElem?_toList, h.starts]
  simp [List.getElem?_map, List.getElem?_range (show i < rows.length + 1 by omega)]

theorem start_of_lt {r : Rows α} {rows : List (List α)} (h : Tiles r rows) {i : Nat} (hi : rows.length < i) :
    r.start i = r.pool.size := by
  have : r.starts.size ≤ i := by
    rw [← Array.length_toList, h.starts, List.length_map, List.length_range]; omega
  simp [start, Array.getD_eq_getD_getElem?, Array.getElem?_eq_none this]

@[simp] theorem size_ofLists (rows : List (List α)) : (ofLists rows).size = rows.length := by
  rw [size, ← Array.length_toList, (tiles_ofLists rows).starts]; simp

/-- A row is read back as it was stored, and a row that does not exist is empty. -/
theorem row_ofLists (rows : List (List α)) (i : Nat) : (ofLists rows).row i = rows.getD i [] := by
  have h := tiles_ofLists rows
  rw [row, Array.toList_extract, h.pool]
  by_cases hi : i < rows.length
  · rw [start_of_le h (Nat.le_of_lt hi), start_of_le h (show i + 1 ≤ rows.length by omega), offset_succ hi]
    have hsplit : rows.flatten = (rows.take i).flatten ++ (rows[i] ++ (rows.drop (i + 1)).flatten) := by
      rw [← List.flatten_cons, ← List.flatten_append, ← List.drop_eq_getElem_cons hi, List.take_append_drop]
    rw [hsplit, offset, List.extract_eq_take_drop, List.drop_left, Nat.add_sub_cancel_left, List.take_left]
    simp [List.getD_eq_getElem?_getD, hi]
  · have hend : (ofLists rows).start i = rows.flatten.length := by
      rcases Nat.lt_or_eq_of_le (Nat.le_of_not_lt hi) with hlt | heq
      · rw [start_of_lt h hlt, ← Array.length_toList, h.pool]
      · rw [start_of_le h (by omega), ← heq, offset_length]
    rw [hend, List.extract_eq_take_drop, List.drop_length, List.take_nil]
    simp [List.getD_eq_getElem?_getD, List.getElem?_eq_none (Nat.le_of_not_lt hi)]

/-- Every row ends where the next one starts, from the first place of the pool to the last. -/
structure Contiguous (r : Rows α) (count : Nat) : Prop where
  size : r.size = count
  first : r.start 0 = 0
  mono : ∀ i < count, r.start i ≤ r.start (i + 1)
  last : r.start count = r.pool.size
  rows : (List.range count).flatMap r.row = r.pool.toList

theorem contiguous_ofLists (rows : List (List α)) : (ofLists rows).Contiguous rows.length := by
  have h := tiles_ofLists rows
  refine ⟨size_ofLists rows, ?_, fun i hi => ?_, ?_, ?_⟩
  · rw [start_of_le h (Nat.zero_le _), offset_zero]
  · rw [start_of_le h (Nat.le_of_lt hi), start_of_le h hi]
    exact offset_le_offset rows (Nat.le_succ i)
  · rw [start_of_le h (Nat.le_refl _), offset_length, ← h.pool, Array.length_toList]
  · have hrows : (List.range rows.length).map (ofLists rows).row = rows := by
      refine List.ext_getElem (by simp) fun i _ hi => ?_
      rw [List.getElem_map, List.getElem_range, row_ofLists, List.getD_eq_getElem?_getD, List.getElem?_eq_getElem hi,
        Option.getD_some]
    rw [List.flatMap_def, hrows, h.pool]

/-! ## Rows from their lengths -/

theorem startsFrom_eq (lengths : List Nat) : ∀ start,
    startsFrom start lengths = (List.range (lengths.length + 1)).map fun i => start + (lengths.take i).sum := by
  induction lengths with
  | nil => intro start; rfl
  | cons n lengths ih =>
    intro start
    rw [startsFrom, ih, List.length_cons, List.range_succ_eq_map (n := lengths.length + 1), List.map_cons, List.map_map]
    refine congrArg₂ _ rfl (List.map_congr_left fun i _ => ?_)
    simp [Nat.add_assoc]

theorem startsFrom_lengths (rows : List (List α)) :
    startsFrom 0 (rows.map List.length) = (List.range (rows.length + 1)).map (offset rows) := by
  rw [startsFrom_eq, List.length_map]
  exact List.map_congr_left fun i _ => by rw [Nat.zero_add, ← List.map_take, ← List.length_flatten, offset]

theorem ofLengths_eq {rows : List (List α)} {lengths : List Nat} {pool : Array α}
    (hlengths : lengths = rows.map List.length) (hpool : pool.toList = rows.flatten) :
    ofLengths lengths pool = ofLists rows :=
  Tiles.eq_ofLists ⟨hpool, by rw [ofLengths, hlengths, startsFrom_lengths]⟩

/-! ## Rows from entries -/

/-- The entries of row `i`, in their order. -/
def entriesOf (entries : List (Nat × α)) (i : Nat) : List α := (entries.filter fun e => e.1 == i).map Prod.snd

theorem entriesOf_append (entries entries' : List (Nat × α)) (i : Nat) :
    entriesOf (entries ++ entries') i = entriesOf entries i ++ entriesOf entries' i := by
  simp [entriesOf]

theorem entriesOf_flatMap {β : Type} (xs : List β) (entries : β → List (Nat × α)) (i : Nat) :
    entriesOf (xs.flatMap entries) i = xs.flatMap fun x => entriesOf (entries x) i := by
  simp [entriesOf, List.filter_flatMap, List.map_flatMap]

theorem entriesOf_singleton (e : Nat × α) (i : Nat) : entriesOf [e] i = if e.1 = i then [e.2] else [] := by
  by_cases h : e.1 = i <;> simp [entriesOf, h]

/-- The rows that the entries make up. -/
def rowsOf (count : Nat) (entries : List (Nat × α)) : List (List α) := (List.range count).map (entriesOf entries)

@[simp] theorem length_rowsOf (count : Nat) (entries : List (Nat × α)) : (rowsOf count entries).length = count := by
  simp [rowsOf]

theorem getElem_rowsOf {count i : Nat} (entries : List (Nat × α)) (hi : i < (rowsOf count entries).length) :
    (rowsOf count entries)[i] = entriesOf entries i := by
  simp [rowsOf]

theorem size_countEntries (count : Nat) (entries : List (Nat × α)) : (countEntries count entries).size = count := by
  refine List.foldlRecOn (motive := fun t : Table Nat => t.size = count) entries _ (Table.size_replicate ..) ?_
  exact fun t ht e _ => (Table.size_modify ..).trans ht

theorem get_foldl_modify {i : Nat} : ∀ (entries : List (Nat × α)) (t : Table Nat), i < t.size →
    (entries.foldl (fun counts e => counts.modify e.1 (· + 1)) t).get i = t.get i + (entriesOf entries i).length
  | [], t, _ => rfl
  | e :: entries, t, hi => by
    rw [List.foldl_cons, get_foldl_modify entries _ (by simpa using hi), Table.get_modify,
      ← List.singleton_append, entriesOf_append, entriesOf_singleton, List.length_append]
    by_cases h : e.1 = i
    · rw [if_pos ⟨h, hi⟩, if_pos h, List.length_singleton, Nat.add_assoc]
    · rw [if_neg fun hc => h hc.1, if_neg h, List.length_nil, Nat.zero_add]

/-- The first pass finds how long each row is going to be. -/
theorem toList_countEntries (count : Nat) (entries : List (Nat × α)) :
    (countEntries count entries).toList = (rowsOf count entries).map List.length := by
  rw [Table.toList_eq_map_get, size_countEntries, rowsOf, List.map_map]
  refine List.map_congr_left fun i hi => ?_
  have hi := List.mem_range.1 hi
  rw [countEntries, get_foldl_modify entries _ (by simpa using hi), Table.get_replicate, if_pos hi, Nat.zero_add]
  rfl

/-- The second pass has come past the entries `done`: they fill the front of their rows, and the next entry of
each row goes behind them. -/
structure Filled (rows : List (List α)) (done : List (Nat × α)) (s : Table Nat × Table α) : Prop where
  positions : s.1.size = rows.length
  pool : s.2.size = rows.flatten.length
  next : ∀ i < rows.length, s.1.get i = offset rows i + (entriesOf done i).length
  cell : ∀ i < rows.length, ∀ j < (entriesOf done i).length,
    s.2.cells[offset rows i + j]? = (entriesOf done i)[j]?

/-- Two places are equal only if they are the same one of the same row. -/
theorem offset_add_inj {rows : List (List α)} {i k j n : Nat} (hi : i < rows.length) (hk : k < rows.length)
    (hn : n < rows[i].length) (hj : j < rows[k].length) (h : offset rows k + j = offset rows i + n) : k = i ∧ j = n := by
  rcases Nat.lt_trichotomy k i with hlt | rfl | hlt
  · have := offset_le_offset rows hlt
    rw [offset_succ hk] at this
    omega
  · exact ⟨rfl, by omega⟩
  · have := offset_le_offset rows hlt
    rw [offset_succ hi] at this
    omega

/-- A row with room for an entry has a place for it in the pool. -/
theorem Filled.position_lt {rows : List (List α)} {done : List (Nat × α)} {s : Table Nat × Table α}
    (h : Filled rows done s) {i : Nat} (hi : i < rows.length) (hroom : (entriesOf done i).length < rows[i].length) :
    s.1.get i < s.2.size := by
  have hend := offset_le rows (i + 1)
  rw [offset_succ hi, ← h.pool] at hend
  rw [h.next i hi]
  omega

/-- An entry for which its row has room goes to a place where no entry is yet. -/
theorem Filled.place {rows : List (List α)} {done : List (Nat × α)} {s : Table Nat × Table α}
    (h : Filled rows done s) (hfit : ∀ k (hk : k < rows.length), (entriesOf done k).length ≤ rows[k].length)
    {i : Nat} {x : α} (hi : i < rows.length) (hroom : (entriesOf done i).length < rows[i].length) :
    Filled rows (done ++ [(i, x)]) (place s (i, x)) := by
  constructor
  · exact (Table.size_set ..).trans h.positions
  · exact (Table.size_set ..).trans h.pool
  · intro k hk
    rw [entriesOf_append, entriesOf_singleton, List.length_append, ← Nat.add_assoc, ← h.next k hk]
    show (s.1.set i (s.1.get i + 1)).get k = _
    rw [Table.get_set]
    by_cases hik : i = k
    · subst hik
      rw [if_pos ⟨rfl, h.positions ▸ hi⟩, if_pos rfl, List.length_singleton]
    · rw [if_neg fun hc => hik hc.1, if_neg hik, List.length_nil, Nat.add_zero]
  · intro k hk j hj
    have hposition : s.1.get i < s.2.cells.size := h.position_lt hi hroom
    show (s.2.cells.setIfInBounds (s.1.get i) x)[offset rows k + j]? = _
    rw [Array.getElem?_setIfInBounds]
    rw [h.next i hi] at hposition ⊢
    rw [entriesOf_append, entriesOf_singleton] at hj ⊢
    by_cases hnew : i = k ∧ j = (entriesOf done i).length
    · obtain ⟨rfl, rfl⟩ := hnew
      rw [if_pos rfl, if_pos hposition, if_pos rfl, List.getElem?_append_right (Nat.le_refl _), Nat.sub_self]
      rfl
    · have hold : j < (entriesOf done k).length := by
        by_cases hik : i = k
        · subst hik
          simp only [if_true, List.length_append, List.length_singleton] at hj
          omega
        · simpa [hik] using hj
      -- The new entry goes elsewhere, since two places of the pool differ as soon as row or column do.
      rw [if_neg fun he => hnew ?_, h.cell k hk j hold, List.getElem?_append_left hold]
      have := offset_add_inj hi hk hroom (Nat.lt_of_lt_of_le hold (hfit k hk)) he.symm
      exact ⟨this.1.symm, this.2⟩

/-- Rows have exactly as many places as they have entries, so while entries are left there is room. -/
theorem room_of_split {count : Nat} {entries done rest : List (Nat × α)} {i : Nat} {x : α}
    (hentries : ∀ e ∈ entries, e.1 < count) (hsplit : done ++ (i, x) :: rest = entries) :
    (∀ k (hk : k < (rowsOf count entries).length), (entriesOf done k).length ≤ (rowsOf count entries)[k].length) ∧
    ∃ hi : i < (rowsOf count entries).length, (entriesOf done i).length < (rowsOf count entries)[i].length := by
  have hi : i < (rowsOf count entries).length := by
    rw [length_rowsOf]
    exact hentries (i, x) (hsplit ▸ by simp)
  refine ⟨fun k hk => ?_, hi, ?_⟩
  · rw [getElem_rowsOf, ← hsplit, entriesOf_append, List.length_append]
    exact Nat.le_add_right ..
  · rw [getElem_rowsOf, ← hsplit, entriesOf_append, List.length_append]
    exact Nat.lt_add_of_pos_right (by simp [entriesOf])

/-- Every entry finds a place in its row. -/
theorem Filled.foldl_place {count : Nat} {entries : List (Nat × α)} (hentries : ∀ e ∈ entries, e.1 < count) :
    ∀ (rest done : List (Nat × α)) (s : Table Nat × Table α), done ++ rest = entries →
      Filled (rowsOf count entries) done s → Filled (rowsOf count entries) entries (rest.foldl Rows.place s)
  | [], done, s, hsplit, h => by
    rw [List.append_nil] at hsplit
    exact hsplit ▸ h
  | (i, x) :: rest, done, s, hsplit, h => by
    obtain ⟨hfit, hi, hroom⟩ := room_of_split hentries hsplit
    exact foldl_place hentries rest (done ++ [(i, x)]) _ (by simpa using hsplit) (h.place hfit hi hroom)

/-- A pool with every element of every row in its place holds the rows back to back. -/
theorem eq_flatten : ∀ {rows : List (List α)} {pool : List α}, pool.length = rows.flatten.length →
    (∀ i (hi : i < rows.length), ∀ j < rows[i].length, pool[offset rows i + j]? = rows[i][j]?) → pool = rows.flatten
  | [], pool, hlen, _ => List.eq_nil_of_length_eq_zero (by simpa using hlen)
  | row :: rows, pool, hlen, h => by
    rw [List.flatten_cons, List.length_append] at hlen
    have hfirst : pool.take row.length = row := by
      refine List.ext_getElem? fun j => ?_
      by_cases hj : j < row.length
      · rw [List.getElem?_take_of_lt hj]
        have := h 0 (Nat.succ_pos _) j hj
        rwa [offset_zero, Nat.zero_add] at this
      · rw [List.getElem?_eq_none (by rw [List.length_take]; omega), List.getElem?_eq_none (by omega)]
    have hrest : pool.drop row.length = rows.flatten := by
      refine eq_flatten (by rw [List.length_drop]; omega) fun i hi j hj => ?_
      have := h (i + 1) (by simpa using hi) j (by simpa using hj)
      simpa [offset, Nat.add_assoc] using this
    rw [← List.take_append_drop row.length pool, hfirst, hrest, List.flatten_cons]

theorem startsFrom_countEntries (count : Nat) (entries : List (Nat × α)) :
    startsFrom 0 (countEntries count entries).toList = (List.range (count + 1)).map (offset (rowsOf count entries)) := by
  rw [toList_countEntries, startsFrom_lengths, length_rowsOf]

theorem end_countEntries (count : Nat) (entries : List (Nat × α)) :
    (startsFrom 0 (countEntries count entries).toList)[count]? = some (rowsOf count entries).flatten.length := by
  rw [startsFrom_countEntries, ← offset_length, length_rowsOf]
  simp

/-- Where the second pass begins. -/
theorem filled_nil (count : Nat) (entries : List (Nat × α)) (fill : α) :
    Filled (rowsOf count entries) []
      (⟨((startsFrom 0 (countEntries count entries).toList).take count).toArray⟩,
        .replicate (rowsOf count entries).flatten.length fill) := by
  rw [startsFrom_countEntries]
  refine ⟨by simp [Table.size], Table.size_replicate .., fun i hi => ?_, fun i _ j hj => absurd hj (Nat.not_lt_zero j)⟩
  rw [length_rowsOf] at hi
  simp [Table.get, Array.getD_eq_getD_getElem?, hi, entriesOf]

/-- Counting the entries of each row and then putting every entry in its place stores the rows they make up. -/
theorem ofEntries_eq {count : Nat} {entries : List (Nat × α)} (h : ∀ e ∈ entries, e.1 < count) (fill : α) :
    ofEntries count fill entries = ofLists (rowsOf count entries) := by
  have hend := Filled.foldl_place h entries [] _ rfl (filled_nil count entries fill)
  have hsize : (startsFrom 0 (countEntries count entries).toList).getD count 0 =
      (rowsOf count entries).flatten.length := by
    rw [List.getD_eq_getElem?_getD, end_countEntries, Option.getD_some]
  rw [ofEntries, hsize]
  refine ofLengths_eq (toList_countEntries count entries) (eq_flatten ?_ fun i hi j hj => ?_)
  · exact Array.length_toList.trans hend.pool
  · rw [getElem_rowsOf] at hj ⊢
    rw [Array.getElem?_toList]
    exact hend.cell i hi j hj

/-! ## The size of the pool -/

theorem sum_ite_eq_countP {β : Type} (p : β → Bool) (xs : List β) :
    (xs.map fun x => if p x = true then 1 else 0).sum = xs.countP p := by
  induction xs with
  | nil => rfl
  | cons x xs ih => rw [List.map_cons, List.sum_cons, ih, List.countP_cons, Nat.add_comm]

/-- Every entry is in one row, so a pool has a place for each of them and no more. -/
theorem length_flatten_rowsOf {count : Nat} : ∀ {entries : List (Nat × α)}, (∀ e ∈ entries, e.1 < count) →
    (rowsOf count entries).flatten.length = entries.length
  | [], _ => by simp [rowsOf, entriesOf, List.length_flatten, Function.comp_def]
  | e :: entries, h => by
    rw [List.forall_mem_cons] at h
    have ih := length_flatten_rowsOf h.2
    have hlen : ∀ i, (entriesOf (e :: entries) i).length =
        (if (e.1 == i) = true then 1 else 0) + (entriesOf entries i).length := fun i => by
      rw [← List.singleton_append, entriesOf_append, entriesOf_singleton, List.length_append]
      by_cases hi : e.1 = i <;> simp [hi]
    have hone : (List.range count).countP (e.1 == ·) = 1 := by
      rw [← List.count_eq_one_of_mem List.nodup_range (List.mem_range.2 h.1), List.count]
      exact List.countP_congr fun i _ => by rw [BEq.comm]
    simp only [rowsOf, List.length_flatten, List.map_map, Function.comp_def] at ih ⊢
    simp only [hlen, List.sum_map_add, sum_ite_eq_countP, ih, hone, List.length_cons, Nat.add_comm]

end ModelCount.Rows
