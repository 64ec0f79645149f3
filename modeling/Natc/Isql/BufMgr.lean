import Natc.Isql.HostVar

/-!
# The command buffer

`iSQLBufMgr::Append` adds the length of the new text to the distance between `m_BufPtr` and `m_Buf`,
but no function moves `m_BufPtr`.
-/

namespace Natc.Isql

/-- A length that is stored in an `int`. -/
def toSInt (k : Nat) : Int :=
  if k % 4294967296 < 2147483648 then k % 4294967296 else k % 4294967296 - 4294967296

/-- `iSQLBufMgr`: the text in `m_Buf` and the distance of `m_BufPtr` from its begin. -/
structure BufMgr where
  m_Buf : Bytes
  m_BufPtr : Nat
  m_MaxBuf : Int
  deriving DecidableEq, Repr

namespace BufMgr

/-- `iSQLBufMgr::iSQLBufMgr`. -/
def new (a_bufSize : Int) : BufMgr where
  m_Buf := []
  m_BufPtr := 0
  m_MaxBuf := a_bufSize

variable (b : BufMgr)

/-- `iSQLBufMgr::Append`: whether it succeeds, and the buffer. -/
def append (a_Str : Bytes) : Bool × BufMgr :=
  if b.m_MaxBuf < b.m_BufPtr + toSInt a_Str.length then (false, b)
  else (true, { b with m_Buf := b.m_Buf ++ a_Str })

/-- `iSQLBufMgr::Reset`. -/
def reset : BufMgr :=
  { b with m_Buf := [], m_BufPtr := 0 }

inductive Call where
  | append (a_Str : Bytes)
  | reset
  deriving DecidableEq, Repr

def run : Call → BufMgr
  | .append a_Str => (b.append a_Str).2
  | .reset => b.reset

/-! ## What the buffer is for -/

/-- The text and its NUL lie in the buffer. -/
def Fits : Prop :=
  (b.m_Buf.length : Int) + 1 ≤ b.m_MaxBuf

/-- A call that does what it is for: `append` fails, and leaves the text, exactly if the text would
not fit. -/
def Right : Call → Prop
  | .append a_Str =>
      ((b.append a_Str).1 = false ↔ b.m_MaxBuf < b.m_Buf.length + a_Str.length + 1) ∧
        (b.append a_Str).2.m_Buf =
          if (b.append a_Str).1 then b.m_Buf ++ a_Str else b.m_Buf
  | .reset => b.reset.m_Buf = []

/-- In this run the text always fits and every call is right. -/
def Served (b : BufMgr) : List Call → Prop
  | [] => b.Fits
  | call :: calls => b.Fits ∧ b.Right call ∧ Served (b.run call) calls

/-- The texts of the run, behind one of length `held`: each fits, or is longer than the buffer by
itself. -/
def Fitting (m_MaxBuf : Int) (held : Nat) : List Call → Prop
  | [] => True
  | .reset :: calls => Fitting m_MaxBuf 0 calls
  | .append a_Str :: calls =>
      if m_MaxBuf < toSInt a_Str.length then Fitting m_MaxBuf held calls
      else (held : Int) + a_Str.length + 1 ≤ m_MaxBuf ∧
        Fitting m_MaxBuf (held + a_Str.length) calls

section run

variable {b} {a_Str : Bytes} {k : Nat} {calls : List Call}

theorem toSInt_le : toSInt k ≤ k := by
  rw [toSInt]
  split <;> omega

/-- `m_BufPtr` stays where it is. -/
theorem run_m_BufPtr (h : b.m_BufPtr = 0) (call : Call) : (b.run call).m_BufPtr = 0 := by
  cases call with
  | append a_Str =>
    rw [run, append]
    split <;> exact h
  | reset => rfl

/-- Only a text that is longer than the whole buffer is rejected. -/
theorem append_eq (h : b.m_BufPtr = 0) : b.append a_Str =
    if b.m_MaxBuf < toSInt a_Str.length then (false, b)
    else (true, { b with m_Buf := b.m_Buf ++ a_Str }) := by
  rw [append, h, Nat.cast_zero, zero_add]

/-- An append is right exactly if it rejects the text or the text fits. -/
theorem right_append_iff (h : b.m_BufPtr = 0) : b.Right (.append a_Str) ↔
    b.m_MaxBuf < toSInt a_Str.length ∨
      (b.m_Buf.length : Int) + a_Str.length + 1 ≤ b.m_MaxBuf := by
  have hle := @toSInt_le a_Str.length
  rw [Right, append_eq h]
  by_cases hlong : b.m_MaxBuf < toSInt a_Str.length
  · have hmore : b.m_MaxBuf < b.m_Buf.length + a_Str.length + 1 := by omega
    simp [hlong, hmore]
  · simp [hlong]

theorem served_iff (hptr : b.m_BufPtr = 0) (hfits : b.Fits) :
    b.Served calls ↔ Fitting b.m_MaxBuf b.m_Buf.length calls := by
  induction calls generalizing b with
  | nil => exact iff_of_true hfits trivial
  | cons call calls ih =>
    have hptr' := run_m_BufPtr hptr call
    rw [Served, and_iff_right hfits]
    cases call with
    | reset =>
      have hempty : b.reset.Fits := by
        have hzero : (b.reset.m_Buf.length : Int) = 0 := rfl
        have hsame : b.reset.m_MaxBuf = b.m_MaxBuf := rfl
        rw [Fits] at hfits ⊢
        omega
      rw [and_iff_right (show b.Right .reset from rfl), ih hptr' hempty]
      rfl
    | append a_Str =>
      rw [right_append_iff hptr, Fitting]
      split
      · next hlong =>
        have hrun : b.run (.append a_Str) = b := by
          rw [run, append_eq hptr, if_pos hlong]
        rw [hrun, ih hptr hfits]
        exact and_iff_right (Or.inl hlong)
      · next hlong =>
        have hrun : b.run (.append a_Str) = { b with m_Buf := b.m_Buf ++ a_Str } := by
          rw [run, append_eq hptr, if_neg hlong]
        have hmore : (b.run (.append a_Str)).Fits ↔
            (b.m_Buf.length : Int) + a_Str.length + 1 ≤ b.m_MaxBuf := by
          rw [hrun, Fits, List.length_append, Nat.cast_add]
        rw [or_iff_right hlong, ← hmore]
        refine and_congr_right fun hfits' => ?_
        rw [ih hptr' hfits', hrun, List.length_append]

end run

/-- A run is served exactly if there is room for the NUL and each text fits or is longer than the
buffer by itself. -/
theorem served_new_iff (a_bufSize : Int) (calls : List Call) :
    (new a_bufSize).Served calls ↔ 0 < a_bufSize ∧ Fitting a_bufSize 0 calls := by
  by_cases hsize : 0 < a_bufSize
  · have hfits : (new a_bufSize).Fits := by
      rw [Fits]
      exact hsize
    rw [served_iff rfl hfits]
    exact (and_iff_right hsize).symm
  · refine iff_of_false (fun h => hsize ?_) fun h => hsize h.1
    have hfits : (new a_bufSize).Fits := by
      cases calls with
      | nil => exact h
      | cons call calls => exact h.1
    exact hfits

/-- A text as long as the buffer leaves no room for its NUL, and is not rejected. -/
theorem not_served_full : ¬∀ a_bufSize calls, 0 < a_bufSize → (new a_bufSize).Served calls := by
  intro h
  have hserved := h 65536 [.append (List.replicate 65536 97)] (by decide)
  have hlong := hserved.2.1.1.mpr (by rw [List.length_replicate]; decide)
  rw [append, List.length_replicate] at hlong
  exact absurd hlong (by decide)

end BufMgr

end Natc.Isql
