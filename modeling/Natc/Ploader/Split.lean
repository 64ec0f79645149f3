import Mathlib.Algebra.Order.Ring.Int
import Natc.Ats.TypeRule
import Natc.Ploader.DataFile

/-!
# Downloads into several files

`-split` makes `DownLoad` begin a new file behind every row whose number is a multiple of the split
count. The count is checked by the action of `SPLIT_OPTION` only.
-/

namespace Natc.Ploader

open Natc.Ats.TypeRule (Text Literal atoi)

/-! ## The options -/

/-- `ECommandType`. -/
inductive CommandType where
  | nonCom | exitCom | helpCom | dataIn | dataOut | formOut | structOut
  deriving DecidableEq, Repr

/-- The options that `IsValidOption` and the split look at. -/
structure ProgOption where
  m_CommandType : CommandType
  m_bExist_T : Bool
  m_bExist_d : Bool
  m_bExist_f : Bool
  m_FieldTerm : Bytes
  m_RowTerm : Bytes
  m_bExist_e : Bool
  m_EnclosingChar : Bytes
  m_bExist_array : Bool
  m_ArrayCount : Int
  m_bExist_split : Bool
  m_SplitRowCount : Int
  mInvalidOption : Bool
  m_bErrorExist : Bool
  m_ErrorMsg : Text
  deriving DecidableEq, Repr

namespace ProgOption

variable (o : ProgOption)

def error (m_ErrorMsg : Text) : ProgOption :=
  { o with m_bErrorExist := true, m_ErrorMsg }

/-- The action of `SPLIT_OPTION` on the text of its number. -/
def splitOption (str : Text) : ProgOption :=
  if o.m_bExist_split then o.error "-split Option is used more than One".toList
  else
    let o := { o with m_bExist_split := true, m_SplitRowCount := atoi str }
    if o.m_SplitRowCount < 0 then o.error "-split Option must be greater than Zero".toList else o

/-- `ValidTermString`. -/
def validTermString : Bool :=
  o.m_FieldTerm ≠ o.m_RowTerm ∧
    (o.m_bExist_e → o.m_FieldTerm ≠ o.m_EnclosingChar ∧ o.m_RowTerm ≠ o.m_EnclosingChar)

def err_form : Text :=
  "-f option(form file name) is not used or precedence option is not correct".toList

def err_data : Text :=
  "-d option(data file name) is not used or precedence option is not correct".toList

def err_term : Text :=
  "Field Terminator, Row terminator and Enclosingchar must be different.\n".toList

def err_table : Text :=
  "-T option(Table name) is not used or precedence option is not correct".toList

def err_array : Text :=
  "-array option(ArrayCount) is Invalid or precedence option is not correct".toList

def err_split : Text :=
  "-split option(SplitRowCount) cannot be used on IN command".toList

/-- `IsValidOption`: the return value and the options. -/
def isValidOption : Bool × ProgOption :=
  if o.mInvalidOption then (false, { o with m_bErrorExist := true })
  else
    match o.m_CommandType with
    | .nonCom => (false, o)
    | .exitCom | .helpCom => (true, o)
    | .dataIn =>
        if !o.m_bExist_f then (false, o.error err_form)
        else if !o.m_bExist_d then (false, o.error err_data)
        else if !o.validTermString then (false, o.error err_term)
        else if o.m_bExist_array ∧ o.m_ArrayCount ≤ 0 then (false, o.error err_array)
        else if o.m_bExist_split then (false, o.error err_split)
        else (true, o)
    | .dataOut =>
        if !o.m_bExist_f then (false, o.error err_form)
        else if !o.m_bExist_d then (false, o.error err_data)
        else if !o.validTermString then (false, o.error err_term)
        else (true, o)
    | .formOut | .structOut =>
        if !o.m_bExist_f then (false, o.error err_form)
        else if !o.m_bExist_T then (false, o.error err_table)
        else (true, o)

/-- The options with which `main` begins a download. -/
structure StartsDownload : Prop where
  noError : o.m_bErrorExist = false
  valid : o.isValidOption.1 = true
  dataOut : o.m_CommandType = .dataOut

end ProgOption

/-! ## The download -/

/-- The loop of `DownLoad`: the files that are closed and the one that is open. -/
structure Down (α : Type) where
  i : Int
  sDataFileCnt : Nat
  closed : List (List α)
  current : List α

/-- How `DownLoad` ends: in undefined arithmetic, with `isql_false`, or with its files. -/
inductive DownEnd (α : Type) where
  | undefined
  | failed
  | done (files : List (List α))

section downLoad

variable {α : Type}

/-- The next turn; the `int` is not defined behind 2^31 - 1. -/
def Down.next (st : Down α) (loop : Down α → DownEnd α) : DownEnd α :=
  if st.i = 2 ^ 31 - 1 then .undefined else loop { st with i := st.i + 1 }

/-- The rows that `Fetch` delivers. `opens` is what `OpenFile` returns, for the file with a number or
for the one without. -/
def downLoop (o : ProgOption) (opens : Option Nat → Bool) : List α → Down α → DownEnd α
  | [], st => .done (st.closed ++ [st.current])
  | row :: rows, st =>
      let st : Down α := { st with current := st.current ++ [row] }
      if o.m_bExist_split then
        if o.m_SplitRowCount = 0 then .undefined
        else if st.i.tmod o.m_SplitRowCount = 0 then
          if opens (some st.sDataFileCnt) then
            Down.next { st with
              sDataFileCnt := st.sDataFileCnt + 1
              closed := st.closed ++ [st.current]
              current := [] } (downLoop o opens rows)
          else .failed
        else st.next (downLoop o opens rows)
      else st.next (downLoop o opens rows)

/-- `iloDownLoad::DownLoad` behind its query. -/
def downLoad (o : ProgOption) (opens : Option Nat → Bool) (rows : List α) : DownEnd α :=
  if o.m_bExist_split then
    if opens (some 0) then downLoop o opens rows ⟨1, 1, [], []⟩ else .failed
  else if opens none then downLoop o opens rows ⟨1, 0, [], []⟩
  else .failed

/-- The arithmetic of the download is defined, its files hold the rows in order, and none holds more
than the split count. -/
def Splits (o : ProgOption) (opens : Option Nat → Bool) (rows : List α) : Prop :=
  ∃ files, downLoad o opens rows = .done files ∧ files.flatten = rows ∧
    ∀ file ∈ files, (file.length : Int) ≤ o.m_SplitRowCount

/-! ## The loop -/

variable {o : ProgOption} {opens : Option Nat → Bool} {n : Nat} {rows : List α} {row : α}
  {st : Down α}

/-- What the loop keeps: the file that is open holds the rows behind the last multiple. -/
structure Down.Counts (st : Down α) (n : Nat) (taken : List α) : Prop where
  i : st.i = taken.length + 1
  current : st.current.length = taken.length % n
  flatten : st.closed.flatten ++ st.current = taken
  closed : ∀ file ∈ st.closed, file.length ≤ n

/-- The state behind a row. -/
def Down.behind (st : Down α) (n : Nat) (row : α) : Down α :=
  if st.i.tmod n = 0 then
    ⟨st.i + 1, st.sDataFileCnt + 1, st.closed ++ [st.current ++ [row]], []⟩
  else ⟨st.i + 1, st.sDataFileCnt, st.closed, st.current ++ [row]⟩

theorem downLoop_cons (hsplit : o.m_bExist_split = true) (hcount : o.m_SplitRowCount = n)
    (hn : n ≠ 0) (hopens : ∀ k, opens (some k) = true) :
    downLoop o opens (row :: rows) st =
      if st.i = 2 ^ 31 - 1 then .undefined else downLoop o opens rows (st.behind n row) := by
  have hne : (n : Int) ≠ 0 := by omega
  simp only [downLoop, hsplit, hcount, if_neg hne, hopens, if_true, Down.next, Down.behind]
  split
  · rfl
  · rfl

theorem succ_mod_eq {m : Nat} (hn : 0 < n) :
    (m + 1) % n = if m % n + 1 = n then 0 else m % n + 1 := by
  have hlt := Nat.mod_lt m hn
  have hsplit : m + 1 = n * (m / n) + (m % n + 1) := by
    rw [← Nat.add_assoc, Nat.div_add_mod]
  rw [hsplit, Nat.mul_add_mod]
  split
  · next hfull => rw [hfull, Nat.mod_self]
  · next hfull => exact Nat.mod_eq_of_lt (by omega)

theorem Down.Counts.behind {taken : List α} (h : st.Counts n taken) (hn : 0 < n) (row : α) :
    (st.behind n row).Counts n (taken ++ [row]) := by
  have hmod : st.i.tmod n = ((taken.length + 1) % n : Nat) := by
    rw [h.i, Int.ofNat_tmod, Nat.cast_succ]
  have hlt := Nat.mod_lt taken.length hn
  have hlength : (taken ++ [row]).length = taken.length + 1 := by simp
  have hcurrent : (st.current ++ [row]).length = taken.length % n + 1 := by
    rw [List.length_append, h.current, List.length_singleton]
  have hflatten : st.closed.flatten ++ (st.current ++ [row]) = taken ++ [row] := by
    rw [← List.append_assoc, h.flatten]
  have hi : st.i + 1 = ((taken ++ [row]).length : Int) + 1 := by
    rw [h.i, hlength, Nat.cast_succ]
  have hnext : (taken.length + 1) % n = if taken.length % n + 1 = n then 0
      else taken.length % n + 1 := succ_mod_eq hn
  rw [Down.behind, hmod]
  by_cases hfull : taken.length % n + 1 = n
  · rw [hnext, if_pos hfull]
    refine ⟨hi, ?_, ?_, fun file hfile => ?_⟩
    · rw [hlength, hnext, if_pos hfull]
      rfl
    · simpa using hflatten
    · rcases List.mem_append.mp hfile with hold | hnew
      · exact h.closed file hold
      · rw [List.mem_singleton.mp hnew, hcurrent]
        exact hfull.le
  · rw [hnext, if_neg hfull, if_neg (by omega)]
    refine ⟨hi, ?_, hflatten, h.closed⟩
    rw [hcurrent, hlength, hnext, if_neg hfull]

/-- The loop comes to its end exactly if the `int` holds the number behind the last row. -/
theorem downLoop_done (hsplit : o.m_bExist_split = true) (hcount : o.m_SplitRowCount = n)
    (hn : 0 < n) (hopens : ∀ k, opens (some k) = true) {taken : List α} (h : st.Counts n taken)
    (hfits : taken.length + rows.length + 1 < 2 ^ 31) :
    ∃ files, downLoop o opens rows st = .done files ∧ files.flatten = taken ++ rows ∧
      ∀ file ∈ files, file.length ≤ n := by
  induction rows generalizing st taken with
  | nil =>
    refine ⟨_, rfl, ?_, fun file hfile => ?_⟩
    · simpa using h.flatten
    · rcases List.mem_append.mp hfile with hold | hnew
      · exact h.closed file hold
      · rw [List.mem_singleton.mp hnew, h.current]
        exact (Nat.mod_lt _ hn).le
  | cons row rows ih =>
    rw [List.length_cons] at hfits
    have hi := h.i
    rw [downLoop_cons hsplit hcount hn.ne' hopens, if_neg (by omega)]
    obtain ⟨files, hdone, hflatten, hfiles⟩ := ih (h.behind hn row)
      (by rw [List.length_append, List.length_singleton]; omega)
    refine ⟨files, hdone, ?_, hfiles⟩
    rw [hflatten, List.append_assoc, List.singleton_append]

theorem downLoop_undefined (hsplit : o.m_bExist_split = true) (hcount : o.m_SplitRowCount = n)
    (hn : 0 < n) (hopens : ∀ k, opens (some k) = true) {taken : List α} (h : st.Counts n taken)
    (hbefore : taken.length + 1 < 2 ^ 31) (hover : 2 ^ 31 ≤ taken.length + rows.length + 1) :
    downLoop o opens rows st = .undefined := by
  induction rows generalizing st taken with
  | nil =>
    rw [List.length_nil] at hover
    omega
  | cons row rows ih =>
    rw [List.length_cons] at hover
    have hi := h.i
    rw [downLoop_cons hsplit hcount hn.ne' hopens]
    split
    · rfl
    · have hlength : (taken ++ [row]).length = taken.length + 1 := by simp
      exact ih (h.behind hn row) (by omega) (by omega)

end downLoad

/-! ## The split -/

section split

variable {α : Type} {o : ProgOption} {opens : Option Nat → Bool} {rows : List α}

/-- What the parser has let through. -/
theorem splitOption_noError {str : Text} (hfirst : o.m_bExist_split = false)
    (h : (o.splitOption str).m_bErrorExist = false) :
    (o.splitOption str).m_bExist_split = true ∧ (o.splitOption str).m_SplitRowCount = atoi str ∧
      0 ≤ atoi str := by
  simp only [ProgOption.splitOption, hfirst, Bool.false_eq_true, if_false] at h ⊢
  split
  · next hneg =>
    rw [if_pos hneg] at h
    cases h
  · next hneg => exact ⟨rfl, rfl, not_lt.mp hneg⟩

/-- A split count of zero divides by zero at the first row. -/
theorem splits_zero (hsplit : o.m_bExist_split = true) (hzero : o.m_SplitRowCount = 0)
    (hopens : ∀ k, opens (some k) = true) : Splits o opens rows ↔ rows = [] := by
  rw [Splits, downLoad, if_pos hsplit, if_pos (hopens 0)]
  cases rows with
  | nil =>
    refine iff_of_true ⟨_, rfl, rfl, fun file hfile => ?_⟩ rfl
    rw [List.nil_append] at hfile
    rw [List.mem_singleton.mp hfile, hzero]
    rfl
  | cons row rows =>
    refine iff_of_false ?_ (List.cons_ne_nil row rows)
    rintro ⟨files, hdone, -⟩
    simp only [downLoop, hsplit, hzero, if_true] at hdone
    cases hdone

theorem splits_pos (hsplit : o.m_bExist_split = true) (hpos : 0 < o.m_SplitRowCount)
    (hopens : ∀ k, opens (some k) = true) :
    Splits o opens rows ↔ rows.length + 1 < 2 ^ 31 := by
  obtain ⟨n, hcount⟩ := Int.eq_ofNat_of_zero_le hpos.le
  have hn : 0 < n := by omega
  have hstart : (⟨1, 1, [], []⟩ : Down α).Counts n [] :=
    ⟨rfl, (Nat.zero_mod n).symm, rfl, fun _ hfile => by cases hfile⟩
  rw [Splits, downLoad, if_pos hsplit, if_pos (hopens 0), hcount]
  rcases Nat.lt_or_ge (rows.length + 1) (2 ^ 31) with hfits | hover
  · have hlength : ([] : List α).length + rows.length + 1 < 2 ^ 31 := by
      rw [List.length_nil]
      omega
    obtain ⟨files, hdone, hflatten, hfiles⟩ :=
      downLoop_done hsplit hcount hn hopens hstart hlength
    exact iff_of_true ⟨files, hdone, hflatten, fun file hfile => by exact_mod_cast hfiles file hfile⟩
      hfits
  · refine iff_of_false ?_ hover.not_gt
    rintro ⟨files, hdone, -⟩
    rw [downLoop_undefined hsplit hcount hn hopens hstart (by simp) (by rw [List.length_nil]; omega)]
      at hdone
    cases hdone

/-- With a `-split` that is accepted, the download is right exactly if the count is not zero or there
are no rows, and the `int` holds the number behind the last row. -/
theorem splits_iff (s : Literal) (hfirst : o.m_bExist_split = false)
    (hstarts : (o.splitOption s.text).StartsDownload) (hopens : ∀ k, opens (some k) = true) :
    Splits (o.splitOption s.text) opens rows ↔
      (atoi s.text ≠ 0 ∨ rows = []) ∧ rows.length + 1 < 2 ^ 31 := by
  obtain ⟨hsplit, hcount, hpos⟩ := splitOption_noError hfirst hstarts.noError
  rcases hpos.eq_or_lt with hzero | hpos
  · rw [splits_zero hsplit (hcount.trans hzero.symm) hopens, ← hzero]
    constructor
    · rintro rfl
      exact ⟨Or.inr rfl, by simp⟩
    · exact fun h => h.1.resolve_left fun hne => hne rfl
  · rw [splits_pos hsplit (hcount ▸ hpos) hopens, and_iff_right (Or.inl hpos.ne')]

end split

/-- The options of `out -f form -d data`. -/
def outOption : ProgOption where
  m_CommandType := .dataOut
  m_bExist_T := false
  m_bExist_d := true
  m_bExist_f := true
  m_FieldTerm := [94]
  m_RowTerm := [10]
  m_bExist_e := false
  m_EnclosingChar := []
  m_bExist_array := false
  m_ArrayCount := 0
  m_bExist_split := false
  m_SplitRowCount := 0
  mInvalidOption := false
  m_bErrorExist := false
  m_ErrorMsg := []

/-- A number of one digit. -/
def oneDigit (c : Char) (hc : c.isDigit = true) : Literal :=
  ⟨false, [c], List.cons_ne_nil c [], List.forall_mem_singleton.mpr hc⟩

/-- `2`. -/
def two : Literal := oneDigit '2' rfl

/-- `0`. -/
def zero : Literal := oneDigit '0' rfl

theorem outOption_startsDownload {s : Literal} (hs : 0 ≤ atoi s.text) :
    (outOption.splitOption s.text).StartsDownload := by
  have hsplit : outOption.splitOption s.text =
      { outOption with m_bExist_split := true, m_SplitRowCount := atoi s.text } :=
    if_neg hs.not_gt
  rw [hsplit]
  exact ⟨rfl, rfl, rfl⟩

theorem splits_two : Splits (outOption.splitOption two.text) (fun _ => true) [1, 2, 3, 4] :=
  (splits_iff two rfl (outOption_startsDownload (by decide)) fun _ => rfl).mpr
    ⟨Or.inl (by decide), by decide⟩

/-- `-split 0` is accepted, and the first row divides by zero. -/
theorem not_splits_zero : (outOption.splitOption zero.text).StartsDownload ∧
    ¬Splits (outOption.splitOption zero.text) (fun _ => true) [1] :=
  ⟨outOption_startsDownload (by decide),
    fun h => by cases (splits_zero rfl rfl fun _ => rfl).mp h⟩

end Natc.Ploader
