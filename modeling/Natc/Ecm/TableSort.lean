import Natc.Lib.Bubble
import Natc.Ecm.ReadFile

/-!
# The order of a TDX table

`ReadFile.tableSort` sorts the rows of a table by time. The table is one vector, row behind row, and
rows are exchanged cell by cell.
-/

namespace Natc.Ecm

open Lib

namespace ReadFile

/-- The vectors of `tableSort`. -/
structure Vectors where
  tableData : List Text
  temp : List Text

/-- The row in front of row `j` goes to `temp`; `none` is an exception. -/
def toTemp (add_row j : Nat) (s : Vectors) (k : Nat) : Option Vectors := do
  let cell ← s.tableData[(j - 1) * add_row + k]?
  let temp ← setElementAt s.temp cell k
  return { s with temp }

def toFront (add_row j : Nat) (s : Vectors) (k : Nat) : Option Vectors := do
  let cell ← s.tableData[j * add_row + k]?
  let tableData ← setElementAt s.tableData cell ((j - 1) * add_row + k : Nat)
  return { s with tableData }

def fromTemp (add_row j : Nat) (s : Vectors) (k : Nat) : Option Vectors := do
  let cell ← s.temp[k]?
  let tableData ← setElementAt s.tableData cell (j * add_row + k : Nat)
  return { s with tableData }

/-- The exchange of row `j` with the one in front of it. -/
def exchange (add_row j : Nat) (s : Vectors) : Option Vectors := do
  let s ← (List.range add_row).foldlM (toTemp add_row j) s
  let s ← (List.range add_row).foldlM (toFront add_row j) s
  (List.range add_row).foldlM (fromTemp add_row j) s

/-- The body of the inner loop. -/
def sortStep (add_row : Nat) (s : Vectors) (j : Nat) : Option Vectors := do
  let cell_value1 ← s.tableData[j * add_row]? >>= parseInt
  let cell_value2 ← s.tableData[(j - 1) * add_row]? >>= parseInt
  if cell_value2 > cell_value1 then exchange add_row j s else some s

/-- The inner loop, with `j` from the last row down to row `i + 1`. -/
def sortPass (add_row total_line_cnt : Nat) (s : Vectors) (i : Nat) : Option Vectors :=
  (List.range (total_line_cnt - 1 - i)).foldlM
    (fun s d => sortStep add_row s (total_line_cnt - 1 - d)) s

/-- `ReadFile.tableSort`, with what is in `temp` before; the indices are below the size of a vector,
so that they do not overflow. -/
def tableSort (f : ReadFile) (temp : List Text) : Option Vectors :=
  let add_row := (f.max_process + 2).toNat
  let total_line_cnt := f.total_line_cnt.toNat
  (List.range (total_line_cnt - 1)).foldlM (sortPass add_row total_line_cnt)
    ⟨f.tableData, temp ++ List.replicate add_row []⟩

end ReadFile

/-- A row of a table: its cells, with an integer in the first one. -/
structure TimeRow (columns : Nat) where
  cells : List Text
  time : Int
  length : cells.length = columns
  parsed : (cells[0]?).bind parseInt = some time

/-- The rows, one behind the other in one vector. -/
def flat {columns : Nat} (rows : List (TimeRow columns)) : List Text := rows.flatMap TimeRow.cells

/-- What `readFile` leaves for such rows. -/
def tableOf {columns : Nat} (rows : List (TimeRow columns)) : ReadFile :=
  ⟨columns - 2, rows.length, flat rows⟩

/-- The second table is the first one in the order of time, with rows of one time as they were. -/
structure SortedFrom {columns : Nat} (rows rows' : List (TimeRow columns)) : Prop where
  perm : rows'.Perm rows
  sorted : rows'.Pairwise (·.time ≤ ·.time)
  stable : ∀ t, rows'.filter (·.time = t) = rows.filter (·.time = t)

/-! ## Exchanging two rows -/

section cells

variable {columns : Nat}

@[simp] theorem length_flat (rows : List (TimeRow columns)) :
    (flat rows).length = rows.length * columns := by
  induction rows with
  | nil => rw [List.length_nil, Nat.zero_mul]; rfl
  | cons r rows ih =>
    rw [flat, List.flatMap_cons, List.length_append, r.length, List.length_cons, Nat.succ_mul,
      Nat.add_comm]
    exact congrArg (· + columns) ih

theorem flat_append (rows rows' : List (TimeRow columns)) :
    flat (rows ++ rows') = flat rows ++ flat rows' := List.flatMap_append

theorem flat_cons (r : TimeRow columns) (rows : List (TimeRow columns)) :
    flat (r :: rows) = r.cells ++ flat rows := List.flatMap_cons

/-- A cell of a row in the vector. -/
theorem flat_cell (pre post : List (TimeRow columns)) (r : TimeRow columns) {k : Nat}
    (hk : k < columns) : (flat (pre ++ r :: post))[pre.length * columns + k]? = r.cells[k]? := by
  rw [flat_append, flat_cons, ← length_flat, List.getElem?_append_right (Nat.le_add_right _ _),
    Nat.add_sub_cancel_left, List.getElem?_append_left (by rw [r.length]; exact hk)]

/-- Cells `0` to `k` have been written over. -/
def partly (pre old new post : List Text) (k : Nat) : List Text :=
  pre ++ (new.take k ++ old.drop k) ++ post

theorem partly_zero (pre old new post : List Text) :
    partly pre old new post 0 = pre ++ old ++ post := rfl

theorem partly_all {pre old new post : List Text} {n : Nat} (hold : old.length = n)
    (hnew : new.length = n) : partly pre old new post n = pre ++ new ++ post := by
  rw [partly, List.take_of_length_le hnew.le, List.drop_eq_nil_of_le hold.le, List.append_nil]

/-- One more cell. -/
theorem setElementAt_partly {pre old new post : List Text} {n k : Nat} {cell : Text}
    (hold : old.length = n) (hk : k < n) (hcell : new[k]? = some cell) :
    setElementAt (partly pre old new post k) cell (pre.length + k : Nat) =
      some (partly pre old new post (k + 1)) := by
  have hlt := (List.getElem?_eq_some_iff.mp hcell).1
  have hlength : (pre ++ new.take k).length = pre.length + k := by
    rw [List.length_append, List.length_take, Nat.min_eq_left hlt.le]
  have hdrop : old.drop k = old[k] :: old.drop (k + 1) := List.drop_eq_getElem_cons (by omega)
  have hsplit : partly pre old new post k =
      (pre ++ new.take k) ++ old[k] :: (old.drop (k + 1) ++ post) := by
    rw [partly, hdrop]
    simp only [List.append_assoc, List.cons_append]
  have hnext : partly pre old new post (k + 1) =
      (pre ++ new.take k) ++ cell :: (old.drop (k + 1) ++ post) := by
    rw [partly, List.take_add_one, hcell]
    simp only [List.append_assoc, List.cons_append, Option.toList_some, List.nil_append]
  rw [hsplit, hnext, setElementAt, if_pos, Int.toNat_natCast, ← hlength,
    List.set_append_right _ _ (Nat.le_refl _), Nat.sub_self, List.set_cons_zero]
  refine ⟨Int.natCast_nonneg _, ?_⟩
  rw [List.length_append, hlength, List.length_cons]
  omega

/-- What stands behind is as before. -/
theorem partly_behind {pre old new post : List Text} {n k : Nat} (hold : old.length = n)
    (hnew : new.length = n) (hk : k ≤ n) (i : Nat) :
    (partly pre old new post k)[pre.length + n + i]? = post[i]? := by
  have hlength : (pre ++ (new.take k ++ old.drop k)).length = pre.length + n := by
    rw [List.length_append, List.length_append, List.length_take, List.length_drop]
    omega
  rw [partly, ← hlength, List.getElem?_append_right (Nat.le_add_right _ _),
    Nat.add_sub_cancel_left]

namespace ReadFile

variable {a b : TimeRow columns} {pre post : List (TimeRow columns)} {temp : List Text}

theorem cell_of_lt (r : TimeRow columns) {k : Nat} (hk : k < columns) :
    ∃ cell, r.cells[k]? = some cell :=
  ⟨_, List.getElem?_eq_getElem (by rw [r.length]; exact hk)⟩

/-- The row in front goes to `temp`. -/
theorem toTemp_loop (htemp : columns ≤ temp.length) :
    (List.range columns).foldlM (toTemp columns (pre.length + 1))
        ⟨flat (pre ++ a :: b :: post), temp⟩ =
      some ⟨flat (pre ++ a :: b :: post), a.cells ++ temp.drop columns⟩ := by
  have htake : (temp.take columns).length = columns := by
    rw [List.length_take, Nat.min_eq_left htemp]
  have hrun := foldlM_range_eq (fun k => Vectors.mk (flat (pre ++ a :: b :: post))
      (partly [] (temp.take columns) a.cells (temp.drop columns) k)) columns
    (fun k hk => show toTemp columns (pre.length + 1) _ k = _ by
      obtain ⟨cell, hcell⟩ := cell_of_lt a hk
      have hset := @setElementAt_partly [] _ a.cells (temp.drop columns) _ k cell htake hk hcell
      rw [List.length_nil, Nat.zero_add] at hset
      dsimp only [toTemp]
      rw [Nat.add_sub_cancel, flat_cell pre (b :: post) a hk, hcell, Option.bind_eq_bind,
        Option.bind_some, hset]
      rfl)
  rwa [partly_zero, partly_all htake a.length, List.nil_append, List.nil_append,
    List.take_append_drop] at hrun

/-- Row `j` goes to the place in front of it. -/
theorem toFront_loop :
    (List.range columns).foldlM (toFront columns (pre.length + 1))
        ⟨flat (pre ++ a :: b :: post), temp⟩ =
      some ⟨flat (pre ++ b :: b :: post), temp⟩ := by
  have hrun := foldlM_range_eq (fun k => Vectors.mk
      (partly (flat pre) a.cells b.cells (b.cells ++ flat post) k) temp) columns
    (fun k hk => show toFront columns (pre.length + 1) _ k = _ by
      obtain ⟨cell, hcell⟩ := cell_of_lt b hk
      have hset := @setElementAt_partly (flat pre) a.cells b.cells (b.cells ++ flat post) _ k cell
        a.length hk hcell
      have hget := @partly_behind (flat pre) a.cells b.cells (b.cells ++ flat post) _ k a.length
        b.length hk.le k
      rw [List.getElem?_append_left (by rw [b.length]; exact hk), hcell] at hget
      rw [length_flat] at hset hget
      dsimp only [toFront]
      rw [Nat.add_sub_cancel, Nat.succ_mul, hget, Option.bind_eq_bind, Option.bind_some, hset]
      rfl)
  rw [partly_zero, partly_all a.length b.length] at hrun
  simpa only [flat_append, flat_cons, List.append_assoc] using hrun

/-- The row of `temp` goes to the place of row `j`. -/
theorem fromTemp_loop (rest : List Text) :
    (List.range columns).foldlM (fromTemp columns (pre.length + 1))
        ⟨flat (pre ++ b :: b :: post), a.cells ++ rest⟩ =
      some ⟨flat (pre ++ b :: a :: post), a.cells ++ rest⟩ := by
  have hrun := foldlM_range_eq (fun k => Vectors.mk
      (partly (flat (pre ++ [b])) b.cells a.cells (flat post) k) (a.cells ++ rest)) columns
    (fun k hk => show fromTemp columns (pre.length + 1) _ k = _ by
      obtain ⟨cell, hcell⟩ := cell_of_lt a hk
      have hset := @setElementAt_partly (flat (pre ++ [b])) b.cells a.cells (flat post) _ k cell
        b.length hk hcell
      rw [length_flat, List.length_append, List.length_singleton] at hset
      dsimp only [fromTemp]
      rw [List.getElem?_append_left (by rw [a.length]; exact hk), hcell, Option.bind_eq_bind,
        Option.bind_some, hset]
      rfl)
  have hpre : flat (pre ++ [b]) = flat pre ++ b.cells := by
    rw [flat_append, flat_cons]
    exact congrArg _ (List.append_nil _)
  rw [partly_zero, partly_all b.length a.length, hpre] at hrun
  simpa only [flat_append, flat_cons, List.append_assoc] using hrun

theorem exchange_eq (htemp : columns ≤ temp.length) :
    exchange columns (pre.length + 1) ⟨flat (pre ++ a :: b :: post), temp⟩ =
      some ⟨flat (pre ++ b :: a :: post), a.cells ++ temp.drop columns⟩ := by
  rw [exchange, toTemp_loop htemp, Option.bind_eq_bind, Option.bind_some, toFront_loop,
    Option.bind_some, fromTemp_loop]

/-- The time of a row in the vector. -/
theorem time_cell (pre post : List (TimeRow columns)) (r : TimeRow columns) :
    ((flat (pre ++ r :: post))[pre.length * columns]?).bind parseInt = some r.time := by
  have hparsed := r.parsed
  have hpos : 0 < columns := by
    rw [← r.length]
    cases hcells : r.cells with
    | nil =>
      rw [hcells] at hparsed
      cases hparsed
    | cons cell cells => exact Nat.succ_pos _
  have hcell := flat_cell pre post r hpos
  rw [Nat.add_zero] at hcell
  rw [hcell, hparsed]

/-- One step of the inner loop; `temp` keeps room for a row. -/
theorem sortStep_eq (htemp : columns ≤ temp.length) :
    ∃ temp', sortStep columns ⟨flat (pre ++ a :: b :: post), temp⟩ (pre.length + 1) =
        some ⟨flat (pre ++ if b.time < a.time then b :: a :: post else a :: b :: post), temp'⟩ ∧
      columns ≤ temp'.length := by
  have hfront := time_cell pre (b :: post) a
  have hback := time_cell (pre ++ [a]) post b
  rw [List.length_append, List.length_singleton, List.append_assoc, List.singleton_append] at hback
  by_cases hlt : b.time < a.time
  · refine ⟨a.cells ++ temp.drop columns, ?_, ?_⟩
    · rw [sortStep, Nat.add_sub_cancel, if_pos hlt]
      simp only [Option.bind_eq_bind, hfront, hback, Option.bind_some]
      rw [if_pos hlt, exchange_eq htemp]
    · rw [List.length_append, a.length]
      exact Nat.le_add_right _ _
  · refine ⟨temp, ?_, htemp⟩
    rw [sortStep, Nat.add_sub_cancel, if_neg hlt]
    simp only [Option.bind_eq_bind, hfront, hback, Option.bind_some]
    rw [if_neg hlt]

/-- The inner loop is one pass over the rows that are not in place yet. -/
theorem sortPass_eq {rows : List (TimeRow columns)} {i : Nat} (hi : i < rows.length - 1)
    (htemp : columns ≤ temp.length) :
    ∃ temp', sortPass columns rows.length ⟨flat rows, temp⟩ i =
        some ⟨flat (rows.take i ++ bubble TimeRow.time (rows.drop i)), temp'⟩ ∧
      columns ≤ temp'.length := by
  obtain ⟨s, hs, temp', rfl, htemp'⟩ := @foldlM_range _
    (fun s d => sortStep columns s (rows.length - 1 - d))
    (fun d s => ∃ temp', s = ⟨flat (rows.take (rows.length - 1 - d) ++
      bubble TimeRow.time (rows.drop (rows.length - 1 - d))), temp'⟩ ∧ columns ≤ temp'.length)
    (rows.length - 1 - i)
    (fun d s hd hI => by
      obtain ⟨temp', rfl, htemp'⟩ := hI
      -- row `j` is the smallest one from there on; the one in front of it is as it was
      obtain ⟨j, hj⟩ : ∃ j, rows.length - 1 - d = j + 1 := ⟨rows.length - 2 - d, by omega⟩
      have hj' : rows.length - 1 - (d + 1) = j := by omega
      have hlt : j + 1 < rows.length := by omega
      have htake : rows.take (j + 1) = rows.take j ++ [rows[j]] :=
        List.take_succ_eq_append_getElem (by omega)
      have hdrop : rows.drop j = rows[j] :: rows.drop (j + 1) :=
        List.drop_eq_getElem_cons (by omega)
      have hlength : (rows.take j).length = j := by
        rw [List.length_take]
        omega
      cases hbubble : bubble TimeRow.time (rows.drop (j + 1)) with
      | nil =>
        have hnil := congrArg List.length hbubble
        rw [length_bubble, List.length_drop, List.length_nil] at hnil
        omega
      | cons b rest =>
        obtain ⟨temp₁, hstep, htemp₁⟩ := @sortStep_eq columns rows[j] b (rows.take j) rest temp'
          htemp'
        rw [hlength] at hstep
        refine ⟨_, ?_, temp₁, rfl, htemp₁⟩
        rw [hj, hj', htake, hdrop, bubble, hbubble, List.append_assoc, List.singleton_append,
          hstep])
    ⟨flat rows, temp⟩
    ⟨temp, by
      have hone : (rows.drop (rows.length - 1)).length ≤ 1 := by
        rw [List.length_drop]
        omega
      rw [Nat.sub_zero]
      rw [bubble_of_length_le hone, List.take_append_drop], htemp⟩
  refine ⟨temp', ?_, htemp'⟩
  have hlast : rows.length - 1 - (rows.length - 1 - i) = i := by omega
  rw [hlast] at hs
  exact hs

/-- The sort goes through all its passes. -/
theorem tableSort_eq (rows : List (TimeRow columns)) (temp : List Text) :
    (tableSort (tableOf rows) temp).map Vectors.tableData =
      some (flat (bubbles TimeRow.time (rows.length - 1) rows)) := by
  obtain ⟨s, hs, temp', rfl, -⟩ := @foldlM_range _ (sortPass columns rows.length)
    (fun i s => ∃ temp', s = ⟨flat (bubbles TimeRow.time i rows), temp'⟩ ∧ columns ≤ temp'.length)
    (rows.length - 1)
    (fun i s hi hI => by
      obtain ⟨temp', rfl, htemp'⟩ := hI
      have hlength := @length_bubbles _ _ _ TimeRow.time i rows
      obtain ⟨temp₁, hpass, htemp₁⟩ := @sortPass_eq columns temp' (bubbles TimeRow.time i rows) i
        (by rwa [hlength]) htemp'
      rw [hlength, ← bubbles_succ] at hpass
      exact ⟨_, hpass, temp₁, rfl, htemp₁⟩)
    ⟨flat rows, temp ++ List.replicate columns []⟩
    ⟨_, rfl, by rw [List.length_append, List.length_replicate]; exact Nat.le_add_left _ _⟩
  have hcolumns : ((tableOf rows).max_process + 2).toNat = columns := by
    show ((columns : Int) - 2 + 2).toNat = columns
    omega
  have hlines : (tableOf rows).total_line_cnt.toNat = rows.length := Int.toNat_natCast _
  rw [tableSort, hcolumns, hlines]
  show Option.map _ (List.foldlM (sortPass columns rows.length)
    ⟨flat rows, temp ++ List.replicate columns []⟩ _) = _
  rw [hs]
  rfl

/-- `tableSort` sorts the rows by time and keeps the order of rows of one time. -/
theorem tableSort_sorted {columns : Nat} (rows : List (TimeRow columns)) (temp : List Text) :
    ∃ rows' : List (TimeRow columns), SortedFrom rows rows' ∧
      (tableSort (tableOf rows) temp).map Vectors.tableData = some (flat rows') := by
  refine ⟨bubbles TimeRow.time (rows.length - 1) rows, ⟨bubbles_perm _ rows, ?_, ?_⟩,
    tableSort_eq rows temp⟩
  · exact bubbles_sorted _ rows (by omega)
  · exact fun t => filter_bubbles t _ rows

end ReadFile

end cells

end Natc.Ecm
