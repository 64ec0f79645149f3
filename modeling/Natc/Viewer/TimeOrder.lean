import Natc.Ecm.ReadFile
import Mathlib.Data.List.Chain

/-!
# The times of a TDX view

Behind the index file the rows hold time stamps. `normTimeStamp` counts them from the smallest one
and `TokenizeOUT` counts on where the times of a process do not grow; both carry their values from
row to row.
-/

namespace Natc.Viewer

open Lib

/-- `TimeStampIdx`, without its columns of text. -/
structure TimeStampIdx where
  idx_x : Nat
  stm_type : Char
  proc_no : Nat
  value : Nat
  deriving DecidableEq, Repr

/-- An index file: lines with the number of a line of the output each. -/
abbrev Tdx := List {r : TimeStampIdx // 0 < r.idx_x}

/-- `aVector.add` -/
def add (v : List (Option TimeStampIdx)) (idx : Nat) (obj : TimeStampIdx) :
    List (Option TimeStampIdx) :=
  (v ++ List.replicate (idx + 1 - v.length) none).set idx (some obj)

def maxLong : Nat := 0x7fffffffffffffff

namespace Tdx

variable (T : Tdx)

/-- The vector behind the loop of `TokenizeTDX`. -/
def vector : List (Option TimeStampIdx) := T.foldl (fun v r => add v r.1.idx_x r.1) []

/-- The zero point. -/
def min_ts : Nat := T.foldl (fun m r => min m r.1.value) maxLong

end Tdx

/-- `normTimeStamp`, with its running values. -/
def normTimeStamp (min_ts before_last_ts before_delta : Nat) :
    List (Option TimeStampIdx) → List (Option TimeStampIdx)
  | [] => []
  | none :: rows => none :: normTimeStamp min_ts before_last_ts before_delta rows
  | some v_row :: rows =>
    let before_delta :=
      if before_last_ts = v_row.value then before_delta + 1 else v_row.value - min_ts
    some { v_row with value := before_delta } ::
      normTimeStamp min_ts v_row.value before_delta rows

/-- The process that a line of the output names, or the one before; `none` is an exception. -/
def procOf (proc_no : Int) (str : Text) : Option Int :=
  if ['$', 'P'].isPrefixOf str then
    if '>' ∈ str then Ecm.parseInt ((str.drop 2).takeWhile (· ≠ '>')) else none
  else some proc_no

structure OutState where
  delta_ts : Nat
  proc_no : Int
  p_row : Option TimeStampIdx

/-- The loop of `TokenizeOUT` from line `x` on, which ends at an exception. -/
def tokenizeOUT : Nat → OutState → List (Option TimeStampIdx) → List Text →
    List (Option TimeStampIdx)
  | _, _, rows, [] => rows
  | x, s, rows, str :: strs =>
    match procOf s.proc_no str with
    | none => rows
    | some proc_no =>
      match rows with
      | [] =>
        -- a line behind the rows; its text cannot be stored for a negative process
        if proc_no < 0 then []
        else some ⟨0, '\x00', proc_no.toNat, maxLong⟩ ::
          tokenizeOUT (x + 1) { s with proc_no } [] strs
      | none :: rows =>
        let delta_ts := if s.p_row.any fun p_row => proc_no ≠ p_row.proc_no then 0 else s.delta_ts
        let v_row : TimeStampIdx :=
          { idx_x := x
            stm_type := s.p_row.elim 'C' TimeStampIdx.stm_type
            proc_no := s.p_row.elim 0 TimeStampIdx.proc_no
            value := delta_ts + 1 }
        some v_row :: tokenizeOUT (x + 1) ⟨delta_ts + 1, v_row.proc_no, s.p_row⟩ rows strs
      | some v_row :: rows =>
        let delta_ts := if proc_no ≠ v_row.proc_no then 0 else s.delta_ts
        let delta_ts := if delta_ts < v_row.value then v_row.value else delta_ts + 1
        let v_row := { v_row with value := delta_ts }
        some v_row :: tokenizeOUT (x + 1) ⟨delta_ts, v_row.proc_no, some v_row⟩ rows strs

namespace Tdx

variable (T : Tdx)

/-- The vector behind `TokenizeTDXStreams`. -/
def view (out : List Text) : List (Option TimeStampIdx) :=
  match normTimeStamp T.min_ts T.min_ts 0 T.vector with
  | [] => none :: tokenizeOUT 1 ⟨0, 0, none⟩ [] out
  | first :: rows => first :: tokenizeOUT 1 ⟨0, 0, none⟩ rows out

/-- The row that the index file has for a line. -/
def row (x : Nat) : Option TimeStampIdx := (T.vector[x]?).join

/-- The time that is shown for a line. -/
def displayed (out : List Text) (x : Nat) : Option Nat :=
  ((T.view out)[x]?).join.map TimeStampIdx.value

/-- Times keep the order of the stamps, and those of a process depend on no other one. -/
structure KeepsTime : Prop where
  order : ∀ out x y r s a b, T.row x = some r → T.row y = some s → r.value < s.value →
    T.displayed out x = some a → T.displayed out y = some b → a < b
  own : ∀ out (T' : Tdx), T'.min_ts = T.min_ts → ∀ p,
    (∀ x, (T'.row x).filter (·.proc_no = p) = (T.row x).filter (·.proc_no = p)) →
      ∀ x r, T.row x = some r → r.proc_no = p → T'.displayed out x = T.displayed out x

end Tdx

/-- The stamps, each with the number of steps that it is counted up. -/
def counted : Nat → Nat → List TimeStampIdx → List (Nat × Nat)
  | _, _, [] => []
  | last, k, r :: rs =>
    let k := if last = r.value then k + 1 else 0
    (r.value, k) :: counted r.value k rs

/-- The rows are those of one process for the lines from the first on, in the order of their stamps,
and no stamp is counted up to the next one. -/
structure Alone (T : Tdx) (p : Nat) (rs : List TimeStampIdx) : Prop where
  vector : T.vector = none :: rs.map some
  proc : ∀ r ∈ rs, r.proc_no = p
  steps : (counted T.min_ts 0 rs).IsChain fun a b => a.1 = b.1 ∨ a.1 + a.2 < b.1

def Plain (T : Tdx) : Prop := T.vector = [] ∨ ∃ p rs, Alone T p rs

/-! ## The vector -/

section vector

variable {T : Tdx}

theorem add_get (v : List (Option TimeStampIdx)) (idx : Nat) (obj : TimeStampIdx) (x : Nat) :
    (add v idx obj)[x]?.join = if x = idx then some obj else v[x]?.join := by
  rw [add, List.getElem?_set]
  by_cases hx : idx = x
  · have hlt : idx < (v ++ List.replicate (idx + 1 - v.length) none).length := by
      rw [List.length_append, List.length_replicate]
      omega
    rw [if_pos hx, if_pos hlt, if_pos hx.symm]
    rfl
  · rw [if_neg hx, if_neg (Ne.symm hx), List.getElem?_append]
    split
    · rfl
    · next hlt =>
      rw [List.getElem?_eq_none (not_lt.mp hlt), List.getElem?_replicate]
      split <;> rfl

theorem length_add (v : List (Option TimeStampIdx)) (idx : Nat) (obj : TimeStampIdx) :
    (add v idx obj).length = max v.length (idx + 1) := by
  rw [add, List.length_set, List.length_append, List.length_replicate]
  omega

namespace Tdx

theorem row_append (e : {r : TimeStampIdx // 0 < r.idx_x}) (x : Nat) :
    row (T ++ [e]) x = if x = e.1.idx_x then some e.1 else T.row x := by
  rw [row, vector, List.foldl_append, List.foldl_cons, List.foldl_nil, add_get]
  rfl

theorem min_ts_append (e : {r : TimeStampIdx // 0 < r.idx_x}) :
    min_ts (T ++ [e]) = min T.min_ts e.1.value := by
  rw [min_ts, List.foldl_append, List.foldl_cons, List.foldl_nil]
  rfl

theorem row_zero (T : Tdx) : T.row 0 = none := by
  induction T using List.reverseRecOn with
  | nil => rfl
  | append_singleton T e ih => rw [row_append, if_neg (Nat.ne_of_lt e.2), ih]

/-- No row stands in front of the zero point. -/
theorem min_ts_le {x : Nat} {r : TimeStampIdx} (h : T.row x = some r) : T.min_ts ≤ r.value := by
  induction T using List.reverseRecOn with
  | nil => cases h
  | append_singleton T e ih =>
    rw [row_append] at h
    rw [min_ts_append]
    split at h
    · cases h
      exact Nat.min_le_right _ _
    · exact (Nat.min_le_left _ _).trans (ih h)

/-- The vector ends with a row. -/
theorem last_vector (T : Tdx) : T.vector = [] ∨ (T.row (T.vector.length - 1)).isSome := by
  induction T using List.reverseRecOn with
  | nil => exact .inl rfl
  | append_singleton T e ih =>
    right
    have hlength : (vector (T ++ [e])).length = max (vector T).length (e.1.idx_x + 1) := by
      rw [vector, List.foldl_append, List.foldl_cons, List.foldl_nil, length_add]
      rfl
    rw [row_append, hlength]
    split
    · rfl
    · next hne =>
      have hlt : e.1.idx_x + 1 < (vector T).length := by omega
      rw [Nat.max_eq_left hlt.le]
      rcases ih with hnil | hlast
      · rw [hnil] at hlt
        cases hlt
      · exact hlast

end Tdx

end vector

/-! ## The normalised rows -/

section norm

variable {min_ts last delta k : Nat}

/-- The rows with their normalised values. -/
def normed (min_ts : Nat) : Nat → Nat → List TimeStampIdx → List TimeStampIdx
  | _, _, [] => []
  | last, delta, r :: rs =>
    let delta := if last = r.value then delta + 1 else r.value - min_ts
    { r with value := delta } :: normed min_ts r.value delta rs

theorem normTimeStamp_append (pre post : List (Option TimeStampIdx)) :
    ∃ last' delta', normTimeStamp min_ts last delta (pre ++ post) =
        normTimeStamp min_ts last delta pre ++ normTimeStamp min_ts last' delta' post ∧
      (last - min_ts ≤ delta → last' - min_ts ≤ delta') := by
  induction pre generalizing last delta with
  | nil => exact ⟨last, delta, rfl, id⟩
  | cons r pre ih =>
    cases r with
    | none =>
      obtain ⟨last', delta', heq, hle⟩ := @ih last delta
      exact ⟨last', delta', by rw [List.cons_append, normTimeStamp, heq]; rfl, hle⟩
    | some r =>
      obtain ⟨last', delta', heq, hle⟩ :=
        @ih r.value (if last = r.value then delta + 1 else r.value - min_ts)
      refine ⟨last', delta', by rw [List.cons_append, normTimeStamp, heq]; rfl, fun h => hle ?_⟩
      split
      · next hlast =>
        rw [← hlast]
        exact Nat.le_succ_of_le h
      · exact Nat.le_refl _

theorem length_normTimeStamp (rows : List (Option TimeStampIdx)) :
    (normTimeStamp min_ts last delta rows).length = rows.length := by
  induction rows generalizing last delta with
  | nil => rfl
  | cons r rows ih =>
    cases r with
    | none => rw [normTimeStamp, List.length_cons, ih, List.length_cons]
    | some r => rw [normTimeStamp, List.length_cons, ih, List.length_cons]

theorem normTimeStamp_map (rs : List TimeStampIdx) (post : List (Option TimeStampIdx)) :
    ∃ behind, normTimeStamp min_ts last delta (rs.map some ++ post) =
      (normed min_ts last delta rs).map some ++ behind := by
  induction rs generalizing last delta with
  | nil => exact ⟨_, rfl⟩
  | cons r rs ih =>
    obtain ⟨behind, hbehind⟩ :=
      @ih r.value (if last = r.value then delta + 1 else r.value - min_ts)
    exact ⟨behind, by rw [List.map_cons, List.cons_append, normTimeStamp, hbehind]; rfl⟩

theorem length_normed (rs : List TimeStampIdx) :
    (normed min_ts last delta rs).length = rs.length := by
  induction rs generalizing last delta with
  | nil => rfl
  | cons r rs ih => rw [normed, List.length_cons, ih, List.length_cons]

theorem normTimeStamp_rows (rs : List TimeStampIdx) :
    normTimeStamp min_ts last delta (rs.map some) = (normed min_ts last delta rs).map some := by
  obtain ⟨behind, hbehind⟩ := @normTimeStamp_map min_ts last delta rs []
  rw [List.append_nil] at hbehind
  have hlength := congrArg List.length hbehind
  rw [length_normTimeStamp, List.length_append, List.length_map, List.length_map,
    length_normed] at hlength
  rw [hbehind, List.length_eq_zero_iff.mp (show behind.length = 0 by omega), List.append_nil]

theorem proc_normed {p : Nat} {rs : List TimeStampIdx} (h : ∀ r ∈ rs, r.proc_no = p) :
    ∀ r ∈ normed min_ts last delta rs, r.proc_no = p := by
  induction rs generalizing last delta with
  | nil => exact fun r hr => absurd hr List.not_mem_nil
  | cons r rs ih =>
    obtain ⟨hr, hrs⟩ := List.forall_mem_cons.mp h
    exact List.forall_mem_cons.mpr ⟨hr, ih hrs⟩

/-- A value is the distance from the zero point and what is counted up. -/
theorem values_normed {rs : List TimeStampIdx} (hlast : min_ts ≤ last)
    (hrs : ∀ r ∈ rs, min_ts ≤ r.value) :
    (normed min_ts last (last - min_ts + k) rs).map TimeStampIdx.value =
      (counted last k rs).map fun c => c.1 - min_ts + c.2 := by
  induction rs generalizing last k with
  | nil => rfl
  | cons r rs ih =>
    obtain ⟨hr, hrs⟩ := List.forall_mem_cons.mp hrs
    rw [normed, counted, List.map_cons, List.map_cons]
    by_cases heq : last = r.value
    · rw [if_pos heq, if_pos heq, ← heq, Nat.add_assoc]
      exact congrArg _ (ih hlast hrs)
    · rw [if_neg heq, if_neg heq]
      have hrest := @ih r.value 0 hr hrs
      rw [Nat.add_zero] at hrest
      exact congrArg _ hrest

theorem stamps_counted (rs : List TimeStampIdx) :
    (counted last k rs).map Prod.fst = rs.map TimeStampIdx.value := by
  induction rs generalizing last k with
  | nil => rfl
  | cons r rs ih => rw [counted, List.map_cons, List.map_cons, ih]

end norm

/-! ## What is counted up -/

section steps

variable {z last k : Nat} {rs : List TimeStampIdx}

/-- A stamp with what it is counted up stays below the next stamp. -/
def Below (a b : Nat × Nat) : Prop := a.1 = b.1 ∨ a.1 + a.2 < b.1

/-- Stamps that do not decrease with values that increase. -/
def Grows (z : Nat) (a b : Nat × Nat) : Prop := a.1 ≤ b.1 ∧ a.1 - z + a.2 < b.1 - z + b.2

instance : Trans (Grows z) (Grows z) (Grows z) :=
  ⟨fun h h' => ⟨h.1.trans h'.1, h.2.trans h'.2⟩⟩

theorem grows_of_below (hlast : z ≤ last)
    (h : ((last, k) :: counted last k rs).IsChain Below) :
    ((last, k) :: counted last k rs).IsChain (Grows z) := by
  induction rs generalizing last k with
  | nil => exact .singleton _
  | cons r rs ih =>
    rw [counted] at h ⊢
    obtain ⟨hstep, hrest⟩ := List.isChain_cons_cons.mp h
    have hle : last ≤ r.value := by
      rcases hstep with heq | hlt
      · exact heq.le
      · exact (Nat.le_add_right _ _).trans hlt.le
    refine List.isChain_cons_cons.mpr ⟨⟨hle, ?_⟩, ih (hlast.trans hle) hrest⟩
    dsimp only at hstep ⊢
    by_cases heq : last = r.value
    · rw [if_pos heq, ← heq]
      omega
    · rw [if_neg heq]
      have hlt : last + k < r.value := hstep.resolve_left heq
      omega

/-- The first row is at the zero point or behind it. -/
theorem below_first (hrs : ∀ r ∈ rs, z ≤ r.value) (h : (counted z 0 rs).IsChain Below) :
    ((z, 0) :: counted z 0 rs).IsChain Below := by
  cases rs with
  | nil => exact .singleton _
  | cons r rs =>
    have hr := hrs r List.mem_cons_self
    rw [counted] at h ⊢
    refine List.isChain_cons_cons.mpr ⟨?_, h⟩
    exact (Nat.eq_or_lt_of_le hr)

/-- The values of such rows increase, from the first step behind the zero point on. -/
theorem pairwise_grows (hrs : ∀ r ∈ rs, z ≤ r.value) (h : (counted z 0 rs).IsChain Below) :
    ((z, 0) :: counted z 0 rs).Pairwise (Grows z) :=
  List.isChain_iff_pairwise.mp (grows_of_below (Nat.le_refl z) (below_first hrs h))

/-- Rows in order, with values in order, are counted up below the next stamp. -/
theorem below_of_values (hrs : ∀ r ∈ rs, z ≤ r.value)
    (hstamp : ∀ i c d, (counted last k rs)[i]? = some c → (counted last k rs)[i + 1]? = some d →
      c.1 ≤ d.1)
    (hvalue : ∀ i c d, (counted last k rs)[i]? = some c → (counted last k rs)[i + 1]? = some d →
      c.1 < d.1 → c.1 - z + c.2 < d.1 - z + d.2) :
    (counted last k rs).IsChain Below := by
  induction rs generalizing last k with
  | nil => exact .nil
  | cons r rs ih =>
    obtain ⟨hr, hrs⟩ := List.forall_mem_cons.mp hrs
    rw [counted] at hstamp hvalue ⊢
    have hrest := ih hrs (fun i c d hc hd => hstamp (i + 1) c d hc hd)
      (fun i c d hc hd => hvalue (i + 1) c d hc hd)
    cases rs with
    | nil => exact .singleton _
    | cons r' rs =>
      rw [counted] at hrest hstamp hvalue ⊢
      refine List.isChain_cons_cons.mpr ⟨?_, hrest⟩
      rcases Nat.eq_or_lt_of_le (hstamp 0 _ _ rfl rfl) with heq | hlt
      · exact .inl heq
      · right
        have hgrows := hvalue 0 _ _ rfl rfl hlt
        dsimp only at hlt hgrows ⊢
        rw [if_neg (Nat.ne_of_lt hlt)] at hgrows
        omega

end steps

/-! ## The output -/

section output

variable {x p : Nat} {s : OutState} {ws : List TimeStampIdx}

/-- Rows with growing values are left as they are, whatever the output is. -/
theorem tokenizeOUT_take (hinc : ws.Pairwise (·.value < ·.value))
    (hlt : ∀ w ∈ ws, s.delta_ts < w.value) (post : List (Option TimeStampIdx)) (out : List Text) :
    (tokenizeOUT x s (ws.map some ++ post) out).take ws.length = ws.map some := by
  induction ws generalizing x s out with
  | nil => rfl
  | cons w ws ih =>
    obtain ⟨hw, hws⟩ := List.pairwise_cons.mp hinc
    obtain ⟨hdelta, -⟩ := List.forall_mem_cons.mp hlt
    have hself : ∀ rows, (List.map some (w :: ws) ++ rows).take (w :: ws).length =
        List.map some (w :: ws) := by
      intro rows
      have htake := @List.take_left _ ((w :: ws).map some) rows
      rwa [List.length_map] at htake
    cases out with
    | nil => exact hself post
    | cons str strs =>
      rw [tokenizeOUT]
      cases procOf s.proc_no str with
      | none => exact hself post
      | some proc_no =>
        have hvalue : (if (if proc_no ≠ w.proc_no then 0 else s.delta_ts) < w.value then w.value
            else (if proc_no ≠ w.proc_no then 0 else s.delta_ts) + 1) = w.value := by
          refine if_pos ?_
          split
          · exact Nat.lt_of_le_of_lt (Nat.zero_le _) hdelta
          · exact hdelta
        rw [List.map_cons, List.cons_append]
        dsimp only
        rw [hvalue, List.length_cons, List.take_succ_cons]
        exact congrArg _ (ih hws (fun v hv => hw v hv) strs)

/-- Without marks in the output the times of one process grow. -/
theorem tokenizeOUT_blank (hws : ∀ w ∈ ws, w.proc_no = p) (hs : s.proc_no = p ∨ s.delta_ts = 0) :
    ∃ us : List TimeStampIdx,
      tokenizeOUT x s (ws.map some) (List.replicate ws.length []) = us.map some ∧
        us.length = ws.length ∧ us.Pairwise (·.value < ·.value) ∧
          ∀ u ∈ us, s.delta_ts < u.value := by
  induction ws generalizing x s with
  | nil => exact ⟨[], rfl, rfl, .nil, fun u hu => absurd hu List.not_mem_nil⟩
  | cons w ws ih =>
    obtain ⟨hw, hws⟩ := List.forall_mem_cons.mp hws
    have hkeep : (if s.proc_no ≠ w.proc_no then 0 else s.delta_ts) = s.delta_ts := by
      rw [hw]
      rcases hs with hs | hs
      · rw [if_neg (not_not.mpr hs)]
      · rw [hs, ite_self]
    have hlt : s.delta_ts < if s.delta_ts < w.value then w.value else s.delta_ts + 1 := by
      split
      · next h => exact h
      · exact Nat.lt_succ_self _
    generalize hdelta : (if s.delta_ts < w.value then w.value else s.delta_ts + 1) = delta at hlt
    obtain ⟨us, heq, hlength, hinc, hus⟩ := @ih (x + 1)
      ⟨delta, w.proc_no, some { w with value := delta }⟩ hws (.inl (by rw [hw]))
    refine ⟨{ w with value := delta } :: us, ?_,
      by rw [List.length_cons, hlength, List.length_cons], List.pairwise_cons.mpr ⟨hus, hinc⟩,
      List.forall_mem_cons.mpr ⟨hlt, fun u hu => hlt.trans (hus u hu)⟩⟩
    rw [List.map_cons, List.length_cons, List.replicate_succ, tokenizeOUT]
    dsimp only [procOf]
    rw [if_neg (by decide)]
    dsimp only
    rw [hkeep, hdelta, heq]
    rfl

end output

/-! ## Rows of one process -/

namespace Alone

variable {T : Tdx} {p : Nat} {rs : List TimeStampIdx}

theorem row_succ (hvector : T.vector = none :: rs.map some) (x : Nat) :
    T.row (x + 1) = rs[x]? := by
  rw [Tdx.row, hvector, List.getElem?_cons_succ, List.getElem?_map]
  cases rs[x]? <;> rfl

theorem min_ts_le_of_mem (hvector : T.vector = none :: rs.map some) :
    ∀ r ∈ rs, T.min_ts ≤ r.value := by
  intro r hr
  obtain ⟨x, hx⟩ := List.mem_iff_getElem?.mp hr
  exact Tdx.min_ts_le ((row_succ hvector x).trans hx)

/-- What the values are, and that they grow. -/
theorem values (h : Alone T p rs) :
    (normed T.min_ts T.min_ts 0 rs).map TimeStampIdx.value =
        (counted T.min_ts 0 rs).map (fun c => c.1 - T.min_ts + c.2) ∧
      (normed T.min_ts T.min_ts 0 rs).Pairwise (·.value < ·.value) ∧
      ∀ w ∈ normed T.min_ts T.min_ts 0 rs, 0 < w.value := by
  have hrs := min_ts_le_of_mem h.vector
  have hvalues := @values_normed T.min_ts T.min_ts 0 rs (Nat.le_refl _) hrs
  rw [Nat.sub_self, Nat.add_zero] at hvalues
  obtain ⟨hfirst, hgrows⟩ := List.pairwise_cons.mp (pairwise_grows hrs h.steps)
  refine ⟨hvalues, ?_, ?_⟩
  · have hpairs : ((counted T.min_ts 0 rs).map fun c => c.1 - T.min_ts + c.2).Pairwise (· < ·) :=
      List.pairwise_map.mpr (hgrows.imp fun h => h.2)
    rw [← hvalues] at hpairs
    exact List.pairwise_map.mp hpairs
  · intro w hw
    have hmem : w.value ∈ (counted T.min_ts 0 rs).map fun c => c.1 - T.min_ts + c.2 := by
      rw [← hvalues]
      exact List.mem_map_of_mem hw
    obtain ⟨c, hc, hcw⟩ := List.mem_map.mp hmem
    have hpos := (hfirst c hc).2
    dsimp only at hpos
    omega

/-- Every view of a file that begins with such rows shows their values. -/
theorem displayed_of_prefix (h : Alone T p rs) {T' : Tdx} (hmin : T'.min_ts = T.min_ts)
    {post : List (Option TimeStampIdx)} (hvector : T'.vector = none :: (rs.map some ++ post))
    (out : List Text) {x : Nat} (hx : x < rs.length) :
    T'.displayed out (x + 1) = (normed T.min_ts T.min_ts 0 rs)[x]?.map TimeStampIdx.value := by
  obtain ⟨-, hinc, hpos⟩ := h.values
  obtain ⟨behind, hbehind⟩ := @normTimeStamp_map T.min_ts T.min_ts 0 rs post
  have hview : T'.view out = none ::
      tokenizeOUT 1 ⟨0, 0, none⟩ ((normed T.min_ts T.min_ts 0 rs).map some ++ behind) out := by
    rw [Tdx.view, hvector, normTimeStamp, hmin, hbehind]
  have htake := tokenizeOUT_take (x := 1) (s := ⟨0, 0, none⟩) hinc hpos behind out
  rw [length_normed] at htake
  have hget : (tokenizeOUT 1 ⟨0, 0, none⟩ ((normed T.min_ts T.min_ts 0 rs).map some ++ behind)
      out)[x]? = (normed T.min_ts T.min_ts 0 rs)[x]?.map some := by
    have hsame := congrArg (fun l => l[x]?) htake
    rwa [List.getElem?_take_of_lt hx, List.getElem?_map] at hsame
  rw [Tdx.displayed, hview, List.getElem?_cons_succ, hget]
  cases (normed T.min_ts T.min_ts 0 rs)[x]? <;> rfl

end Alone

/-! ## Rows of other processes -/

section others

variable {T : Tdx}

/-- A row of another process, with any stamp, in front of line `x + 1`. -/
def otherRow (x proc_no value : Nat) : {r : TimeStampIdx // 0 < r.idx_x} :=
  ⟨⟨x + 1, 'C', proc_no, value⟩, Nat.succ_pos x⟩

/-- What stands behind it in the view without output. -/
theorem displayed_otherRow {x q value : Nat} {r : TimeStampIdx} (hr : T.row (x + 2) = some r)
    (hmin : T.min_ts ≤ value) :
    ∃ k, Tdx.displayed (T ++ [otherRow x q value]) [] (x + 2) =
      some (if value = r.value then value - T.min_ts + k + 1 else r.value - T.min_ts) := by
  have hlt : x + 2 < T.vector.length := by
    by_contra hle
    rw [Tdx.row, List.getElem?_eq_none (not_lt.mp hle)] at hr
    cases hr
  have hget : T.vector[x + 2] = some r := by
    rw [Tdx.row, List.getElem?_eq_getElem hlt] at hr
    exact hr
  have hmin' : Tdx.min_ts (T ++ [otherRow x q value]) = T.min_ts := by
    rw [Tdx.min_ts_append]
    exact Nat.min_eq_left hmin
  have hvector : Tdx.vector (T ++ [otherRow x q value]) = T.vector.take (x + 1) ++
      some (otherRow x q value).1 :: some r :: T.vector.drop (x + 3) := by
    have hdrop : T.vector.drop (x + 2) = some r :: T.vector.drop (x + 3) := by
      rw [List.drop_eq_getElem_cons hlt, hget]
    rw [Tdx.vector, List.foldl_append, List.foldl_cons, List.foldl_nil]
    show add T.vector (x + 1) (otherRow x q value).1 = _
    have hnone : x + 1 + 1 - T.vector.length = 0 := by omega
    rw [add, hnone, List.replicate_zero, List.append_nil,
      List.set_eq_take_append_cons_drop, if_pos (by omega), hdrop]
  have hlength : (T.vector.take (x + 1)).length = x + 1 := by
    rw [List.length_take]
    omega
  obtain ⟨last, delta, hnorm, hle⟩ := @normTimeStamp_append T.min_ts T.min_ts 0
    (T.vector.take (x + 1)) (some (otherRow x q value).1 :: some r :: T.vector.drop (x + 3))
  have hle := hle (by omega)
  have hview : Tdx.view (T ++ [otherRow x q value]) [] = normTimeStamp T.min_ts T.min_ts 0
      (T.vector.take (x + 1)) ++ normTimeStamp T.min_ts last delta
        (some (otherRow x q value).1 :: some r :: T.vector.drop (x + 3)) := by
    rw [Tdx.view, hmin', hvector, hnorm]
    split
    · next hnil =>
      have hzero := congrArg List.length hnil
      rw [List.length_append, length_normTimeStamp, hlength] at hzero
      cases hzero
    · next first rows hcons => rw [tokenizeOUT, hcons]
  have hindex : Tdx.displayed (T ++ [otherRow x q value]) [] (x + 2) =
      some (if value = r.value then
        (if last = value then delta + 1 else value - T.min_ts) + 1 else r.value - T.min_ts) := by
    rw [Tdx.displayed, hview, List.getElem?_append_right, length_normTimeStamp, hlength]
    · have hone : x + 2 - (x + 1) = 1 := by omega
      rw [hone]
      rfl
    · rw [length_normTimeStamp, hlength]
      exact Nat.le_succ _
  refine ⟨(if last = value then delta + 1 else value - T.min_ts) - (value - T.min_ts), ?_⟩
  rw [hindex]
  by_cases hvalue : value = r.value
  · rw [if_pos hvalue, if_pos hvalue]
    refine congrArg some ?_
    by_cases hlast : last = value
    · rw [if_pos hlast]
      rw [hlast] at hle
      omega
    · rw [if_neg hlast]
      omega
  · rw [if_neg hvalue, if_neg hvalue]

/-- A row that follows no row of its own process depends on what stands in front of it. -/
theorem exists_pred (h : T.KeepsTime) {x : Nat} {r : TimeStampIdx} (hr : T.row (x + 2) = some r) :
    ∃ r', T.row (x + 1) = some r' ∧ r'.proc_no = r.proc_no := by
  by_contra hnot
  have hfilter : (T.row (x + 1)).filter (·.proc_no = r.proc_no) = none := by
    rw [Option.filter_eq_none_iff]
    intro r' hr' hproc
    exact hnot ⟨r', hr', of_decide_eq_true hproc⟩
  have hmin := Tdx.min_ts_le hr
  have hsame : ∀ value, r.value ≤ value →
      Tdx.displayed (T ++ [otherRow x (r.proc_no + 1) value]) [] (x + 2) =
        T.displayed [] (x + 2) := by
    intro value hvalue
    refine h.own [] _ ?_ r.proc_no (fun y => ?_) (x + 2) r hr rfl
    · rw [Tdx.min_ts_append]
      exact Nat.min_eq_left (hmin.trans hvalue)
    · have hidx : (otherRow x (r.proc_no + 1) value).1.idx_x = x + 1 := rfl
      rw [Tdx.row_append, hidx]
      by_cases hy : y = x + 1
      · rw [if_pos hy, hy, hfilter]
        exact Option.filter_some_neg (by simp [otherRow])
      · rw [if_neg hy]
  obtain ⟨k, hk⟩ := @displayed_otherRow T x (r.proc_no + 1) r.value r hr hmin
  obtain ⟨k', hk'⟩ := @displayed_otherRow T x (r.proc_no + 1) (r.value + 1) r hr
    (Nat.le_succ_of_le hmin)
  rw [hsame _ (Nat.le_refl _), if_pos rfl] at hk
  rw [hsame _ (Nat.le_succ _), if_neg (Nat.succ_ne_self _), hk] at hk'
  have heq := Option.some.inj hk'
  omega

/-- Rows that follow each other up to the last place. -/
theorem exists_rows {rows : List (Option TimeStampIdx)} (hlast : ∀ c ∈ rows.getLast?, c.isSome)
    (hpred : ∀ (x : Nat) r, rows[x + 1]? = some (some r) →
      ∃ r', rows[x]? = some (some r') ∧ r'.proc_no = r.proc_no) :
    ∃ (p : Nat) (rs : List TimeStampIdx), rows = rs.map some ∧ ∀ r ∈ rs, r.proc_no = p := by
  induction rows using List.reverseRecOn with
  | nil => exact ⟨0, [], rfl, fun r hr => absurd hr List.not_mem_nil⟩
  | append_singleton rows c ih =>
    rw [List.getLast?_concat] at hlast
    obtain ⟨r, rfl⟩ := Option.isSome_iff_exists.mp (hlast c rfl)
    have hget : ∀ (x : Nat), x < rows.length → (rows ++ [some r])[x]? = rows[x]? :=
      fun x hx => List.getElem?_append_left hx
    have hend : (rows ++ [some r])[rows.length]? = some (some r) := by
      rw [List.getElem?_append_right (Nat.le_refl _), Nat.sub_self]
      rfl
    cases hlength : rows.length with
    | zero =>
      rw [List.length_eq_zero_iff.mp hlength]
      exact ⟨r.proc_no, [r], rfl, fun r' hr' => by rw [List.mem_singleton.mp hr']⟩
    | succ n =>
      rw [hlength] at hend
      -- the row in front of the last one has its process, and is the last one of the rest
      obtain ⟨r', hr', hproc⟩ := hpred n r hend
      rw [hget n (by omega)] at hr'
      have hlast' : rows.getLast? = some (some r') := by
        rw [List.getLast?_eq_getElem?, hlength]
        exact hr'
      obtain ⟨p, rs, hrows, hrs⟩ := ih
        (fun c hc => by rw [hlast'] at hc; cases hc; rfl)
        (fun x r₁ hr₁ => by
          have hlt : x + 1 < rows.length := (List.getElem?_eq_some_iff.mp hr₁).1
          obtain ⟨r₂, hr₂, h₂⟩ := hpred x r₁ (by rw [hget _ hlt, hr₁])
          exact ⟨r₂, by rw [← hget x (by omega), hr₂], h₂⟩)
      refine ⟨p, rs ++ [r], by rw [hrows, List.map_append]; rfl, fun r₁ hr₁ => ?_⟩
      have hmem : r' ∈ rs := by
        rw [hrows, List.getElem?_map, Option.map_eq_some_iff] at hr'
        obtain ⟨r₂, hr₂, hsome⟩ := hr'
        rw [← Option.some.inj hsome]
        exact List.mem_of_getElem? hr₂
      rcases List.mem_append.mp hr₁ with hr₁ | hr₁
      · exact hrs r₁ hr₁
      · rw [List.mem_singleton.mp hr₁, ← hproc]
        exact hrs r' hmem

/-- Such a file holds the rows of one process, for the lines from the first on. -/
theorem vector_of_keepsTime (h : T.KeepsTime) :
    T.vector = [] ∨ ∃ (p : Nat) (rs : List TimeStampIdx),
      T.vector = none :: rs.map some ∧ ∀ r ∈ rs, r.proc_no = p := by
  have hlast := Tdx.last_vector T
  have hzero := Tdx.row_zero T
  have hrow : ∀ x, T.row x = (T.vector[x]?).join := fun _ => rfl
  have hpred := @exists_pred T h
  generalize hvector : T.vector = v at hlast hrow ⊢
  cases v with
  | nil => exact .inl rfl
  | cons first rows =>
    right
    have hfirst : first = none := by
      rw [hrow] at hzero
      exact hzero
    have hget : ∀ x, T.row (x + 1) = (rows[x]?).join := fun x => hrow (x + 1)
    obtain ⟨p, rs, hrs, hproc⟩ := @exists_rows rows
      (fun c hc => by
        rcases hlast with hnil | hsome
        · cases hnil
        · cases rows with
          | nil => cases hc
          | cons c' rows =>
            rw [List.length_cons, Nat.add_sub_cancel, List.length_cons, hget] at hsome
            rw [List.getLast?_eq_getElem?, List.length_cons, Nat.add_sub_cancel] at hc
            rw [hc] at hsome
            exact hsome)
      (fun x r hr => by
        have hsome : T.row (x + 2) = some r := by
          rw [hget, hr]
          rfl
        obtain ⟨r', hr', hproc⟩ := hpred hsome
        rw [hget, Option.join_eq_some_iff] at hr'
        exact ⟨r', hr', hproc⟩)
    exact ⟨p, rs, by rw [hfirst, hrs], hproc⟩

end others

/-! ## The order of time -/

namespace Alone

variable {T : Tdx} {p : Nat} {rs : List TimeStampIdx}

theorem displayed_nil (hvector : T.vector = none :: rs.map some) (x : Nat) :
    T.displayed [] (x + 1) = (normed T.min_ts T.min_ts 0 rs)[x]?.map TimeStampIdx.value := by
  rw [Tdx.displayed, Tdx.view, hvector, normTimeStamp, normTimeStamp_rows]
  dsimp only
  rw [tokenizeOUT, List.getElem?_cons_succ, List.getElem?_map]
  cases (normed T.min_ts T.min_ts 0 rs)[x]? <;> rfl

/-- Behind an output without marks the times grow. -/
theorem displayed_blank (hvector : T.vector = none :: rs.map some)
    (hproc : ∀ r ∈ rs, r.proc_no = p) :
    ∃ us : List TimeStampIdx, us.length = rs.length ∧ us.Pairwise (·.value < ·.value) ∧
      ∀ x, T.displayed (List.replicate rs.length []) (x + 1) = us[x]?.map TimeStampIdx.value := by
  obtain ⟨us, heq, hlength, hinc, -⟩ := @tokenizeOUT_blank 1 p ⟨0, 0, none⟩
    (normed T.min_ts T.min_ts 0 rs) (proc_normed hproc) (.inr rfl)
  rw [length_normed] at heq hlength
  refine ⟨us, hlength, hinc, fun x => ?_⟩
  rw [Tdx.displayed, Tdx.view, hvector, normTimeStamp, normTimeStamp_rows]
  dsimp only
  rw [heq, List.getElem?_cons_succ, List.getElem?_map]
  cases us[x]? <;> rfl

/-- The row of a stamp. -/
theorem row_of_counted (hvector : T.vector = none :: rs.map some) {x : Nat} {c : Nat × Nat}
    (hc : (counted T.min_ts 0 rs)[x]? = some c) : ∃ r, T.row (x + 1) = some r ∧ r.value = c.1 := by
  have hmap := congrArg (fun l => l[x]?) (@stamps_counted T.min_ts 0 rs)
  simp only [List.getElem?_map, hc, Option.map_some] at hmap
  obtain ⟨r, hr, hvalue⟩ := Option.map_eq_some_iff.mp hmap.symm
  exact ⟨r, (row_succ hvector x).trans hr, hvalue⟩

theorem normed_of_counted (hvector : T.vector = none :: rs.map some) (x : Nat) :
    (normed T.min_ts T.min_ts 0 rs)[x]?.map TimeStampIdx.value =
      (counted T.min_ts 0 rs)[x]?.map fun c => c.1 - T.min_ts + c.2 := by
  have hvalues := @values_normed T.min_ts T.min_ts 0 rs (Nat.le_refl _)
    (min_ts_le_of_mem hvector)
  rw [Nat.sub_self, Nat.add_zero] at hvalues
  rw [← List.getElem?_map, hvalues, List.getElem?_map]

theorem of_keepsTime (h : T.KeepsTime) (hvector : T.vector = none :: rs.map some)
    (hproc : ∀ r ∈ rs, r.proc_no = p) : Alone T p rs := by
  refine ⟨hvector, hproc, below_of_values (min_ts_le_of_mem hvector) ?_ ?_⟩
  · intro x c d hc hd
    by_contra hlt
    obtain ⟨r, hr, hrc⟩ := row_of_counted hvector hc
    obtain ⟨s, hs, hsd⟩ := row_of_counted hvector hd
    obtain ⟨us, hlength, hinc, hus⟩ := displayed_blank hvector hproc
    have hrs := (row_succ hvector (x + 1)).symm.trans hs
    have hx : x + 1 < us.length := hlength ▸ (List.getElem?_eq_some_iff.mp hrs).1
    have hgrows := List.pairwise_iff_getElem.mp hinc x (x + 1) (by omega) hx (Nat.lt_succ_self x)
    have hshown := h.order (List.replicate rs.length []) (x + 2) (x + 1) s r _ _ hs hr (by omega)
      (by rw [hus, List.getElem?_eq_getElem hx]; rfl)
      (by rw [hus, List.getElem?_eq_getElem (by omega)]; rfl)
    omega
  · intro x c d hc hd hlt
    obtain ⟨r, hr, hrc⟩ := row_of_counted hvector hc
    obtain ⟨s, hs, hsd⟩ := row_of_counted hvector hd
    exact h.order [] (x + 1) (x + 2) r s _ _ hr hs (by omega)
      (by rw [displayed_nil hvector, normed_of_counted hvector, hc]; rfl)
      (by rw [displayed_nil hvector, normed_of_counted hvector, hd]; rfl)

/-- What is shown for a row is its stamp from the zero point with what is counted up. -/
theorem displayed (h : Alone T p rs) (out : List Text) {x : Nat} {r : TimeStampIdx}
    (hr : T.row x = some r) : ∃ y c, x = y + 1 ∧ (counted T.min_ts 0 rs)[y]? = some c ∧
      r.value = c.1 ∧ T.displayed out x = some (c.1 - T.min_ts + c.2) := by
  cases x with
  | zero =>
    rw [Tdx.row_zero] at hr
    cases hr
  | succ y =>
    have hrs := (row_succ h.vector y).symm.trans hr
    have hmap := congrArg (fun l => l[y]?) (@stamps_counted T.min_ts 0 rs)
    simp only [List.getElem?_map, hrs, Option.map_some] at hmap
    obtain ⟨c, hc, hvalue⟩ := Option.map_eq_some_iff.mp hmap
    refine ⟨y, c, rfl, hc, hvalue.symm, ?_⟩
    have hvector : T.vector = none :: (rs.map some ++ []) := by rw [List.append_nil, h.vector]
    rw [h.displayed_of_prefix rfl hvector out (List.getElem?_eq_some_iff.mp hrs).1,
      normed_of_counted h.vector, hc]
    rfl

theorem order (h : Alone T p rs) {out : List Text} {x y : Nat} {r s : TimeStampIdx} {a b : Nat}
    (hr : T.row x = some r) (hs : T.row y = some s) (hlt : r.value < s.value)
    (ha : T.displayed out x = some a) (hb : T.displayed out y = some b) : a < b := by
  obtain ⟨i, c, -, hc, hrc, hxc⟩ := h.displayed out hr
  obtain ⟨j, d, -, hd, hsd, hyd⟩ := h.displayed out hs
  obtain ⟨-, hgrows⟩ := List.pairwise_cons.mp
    (pairwise_grows (min_ts_le_of_mem h.vector) h.steps)
  obtain ⟨hi, hci⟩ := List.getElem?_eq_some_iff.mp hc
  obtain ⟨hj, hdj⟩ := List.getElem?_eq_some_iff.mp hd
  rw [hxc] at ha
  rw [hyd] at hb
  cases ha
  cases hb
  rcases Nat.lt_trichotomy i j with hij | hij | hij
  · have hstep := (List.pairwise_iff_getElem.mp hgrows i j hi hj hij).2
    rwa [hci, hdj] at hstep
  · subst hij
    rw [hc] at hd
    cases hd
    omega
  · have hstep := (List.pairwise_iff_getElem.mp hgrows j i hj hi hij).1
    rw [hci, hdj] at hstep
    omega

/-- A file with the same rows of the process begins with them. -/
theorem vector_of_own (h : Alone T p rs) {T' : Tdx}
    (hown : ∀ x, (T'.row x).filter (·.proc_no = p) = (T.row x).filter (·.proc_no = p))
    (hne : rs ≠ []) : ∃ post, T'.vector = none :: (rs.map some ++ post) := by
  have hrow : ∀ x r, rs[x]? = some r → T'.vector[x + 1]? = some (some r) := by
    intro x r hr
    have hfilter := hown (x + 1)
    have hproc : (some r).filter (·.proc_no = p) = some r :=
      if_pos (decide_eq_true (h.proc r (List.mem_of_getElem? hr)))
    rw [row_succ h.vector, hr, hproc] at hfilter
    exact Option.join_eq_some_iff.mp (Option.filter_eq_some_iff.mp hfilter).1
  have hzero := Tdx.row_zero T'
  rw [Tdx.row] at hzero
  generalize T'.vector = v at hrow hzero ⊢
  cases v with
  | nil =>
    obtain ⟨r, hr⟩ := List.exists_mem_of_ne_nil rs hne
    obtain ⟨x, hx⟩ := List.mem_iff_getElem?.mp hr
    cases hrow x r hx
  | cons first rows =>
    have hfirst : first = none := hzero
    refine ⟨rows.drop rs.length, ?_⟩
    have htake : rows.take rs.length = rs.map some := by
      refine List.ext_getElem? fun x => ?_
      rw [List.getElem?_map]
      by_cases hx : x < rs.length
      · have hr := hrow x rs[x] (List.getElem?_eq_getElem hx)
        rw [List.getElem?_take_of_lt hx, List.getElem?_eq_getElem hx]
        exact hr
      · rw [List.getElem?_eq_none (not_lt.mp hx), List.getElem?_take_eq_none (not_lt.mp hx)]
        rfl
    rw [hfirst, ← htake, List.take_append_drop]

theorem own (h : Alone T p rs) {out : List Text} {T' : Tdx} (hmin : T'.min_ts = T.min_ts) {q : Nat}
    (hown : ∀ x, (T'.row x).filter (·.proc_no = q) = (T.row x).filter (·.proc_no = q)) {x : Nat}
    {r : TimeStampIdx} (hr : T.row x = some r) (hq : r.proc_no = q) :
    T'.displayed out x = T.displayed out x := by
  obtain ⟨y, c, rfl, -, -, -⟩ := h.displayed out hr
  have hrs := (row_succ h.vector y).symm.trans hr
  have hlt := (List.getElem?_eq_some_iff.mp hrs).1
  have hp : p = q := (h.proc r (List.mem_of_getElem? hrs)).symm.trans hq
  subst hp
  obtain ⟨post, hpost⟩ := h.vector_of_own hown (List.ne_nil_of_mem (List.mem_of_getElem? hrs))
  have hvector : T.vector = none :: (rs.map some ++ []) := by rw [List.append_nil, h.vector]
  rw [h.displayed_of_prefix hmin hpost out hlt, h.displayed_of_prefix rfl hvector out hlt]

end Alone

end Natc.Viewer
