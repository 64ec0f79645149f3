import Mathlib.Data.List.Basic
import Mathlib.Data.Nat.Find
import Natc.Agent.Wire

/-!
# Receiving a message

`recv_nn` of the host and of the target call `recv` until all the bytes they want are there. What
the calls return is given as a sequence, one result for each call.
-/

namespace Natc.Agent

/-- What a call of `recv` returns: some bytes, 0 of a peer that has closed the connection, or -1
with an error number, `EINTR` among them. -/
inductive RecvResult where
  | data (bytes : Bytes)
  | closed
  | failed (sErrno : Nat)
  deriving DecidableEq, Repr

namespace RecvResult

/-- The bytes that are stored. -/
def bytes : RecvResult → Bytes
  | .data bytes => bytes
  | .closed | .failed _ => []

def isFailed : RecvResult → Bool
  | .failed _ => true
  | .data _ | .closed => false

/-- The return value. -/
def sRet : RecvResult → Int
  | .data bytes => bytes.length
  | .closed => 0
  | .failed _ => -1

end RecvResult

/-- The variables of `recv_nn`, with what it has stored and, once it has returned, the value. -/
structure Recv where
  sSize : Int
  sCursor : Int
  sGetSize : Int
  aBuffer : Bytes
  returned : Option Int
  deriving DecidableEq, Repr

namespace Recv

def start : Recv where
  sSize := 0
  sCursor := 0
  sGetSize := 1024
  aBuffer := []
  returned := none

/-- How much the next call asks for. -/
def asked (aSize : Int) (s : Recv) : Int :=
  if aSize - s.sSize < s.sGetSize then aSize - s.sSize else s.sGetSize

/-- The body of the loop, with the result of its call. -/
def call (aSize : Int) (s : Recv) (r : RecvResult) : Recv :=
  match s.returned with
  | some _ => s
  | none =>
      let s := { s with sGetSize := s.asked aSize }
      if r.sRet < 0 then { s with returned := some (-1) }
      else
        let s := { s with sSize := s.sSize + r.sRet, aBuffer := s.aBuffer ++ r.bytes }
        if aSize = s.sSize then { s with returned := some s.sSize }
        else { s with sCursor := s.sCursor + r.sRet }

theorem call_failed {aSize : Int} {s : Recv} {r : RecvResult} (h : s.returned = none)
    (hr : r.sRet < 0) :
    s.call aSize r = { s with sGetSize := s.asked aSize, returned := some (-1) } := by
  unfold call
  simp only [h]
  rw [if_pos hr]

/-- The call that completes the message. -/
theorem call_done {aSize : Int} {s : Recv} {r : RecvResult} (h : s.returned = none)
    (hr : 0 ≤ r.sRet) (hall : s.sSize + r.sRet = aSize) :
    s.call aSize r =
      { s with
        sSize := aSize
        sGetSize := s.asked aSize
        aBuffer := s.aBuffer ++ r.bytes
        returned := some aSize } := by
  unfold call
  simp only [h]
  rw [if_neg (Int.not_lt.mpr hr), if_pos hall.symm, hall]

end Recv

/-- The two functions are the same word for word: the state behind the first `k` calls. -/
def recvCalls (aSize : Int) (results : Nat → RecvResult) : Nat → Recv
  | 0 => .start
  | k + 1 => (recvCalls aSize results k).call aSize (results k)

namespace Host

/-- `recv_nn` of `host.cpp`. -/
def recv_nn (aSize : Int) (results : Nat → RecvResult) : Nat → Recv :=
  recvCalls aSize results

end Host

namespace Target

/-- `recv_nn` of `target.cpp`. -/
def recv_nn (aSize : Int) (results : Nat → RecvResult) : Nat → Recv :=
  recvCalls aSize results

end Target

/-- No call returns more than it has asked for, or no bytes at all without a reason. -/
def Possible (aSize : Int) (results : Nat → RecvResult) : Prop :=
  ∀ k bytes, (recvCalls aSize results k).returned = none → results k = .data bytes →
    0 < bytes.length ∧ bytes.length ≤ (recvCalls aSize results k).asked aSize

/-- From some call on the peer has closed the connection, or the calls fail. -/
def Ended (results : Nat → RecvResult) : Prop :=
  ∃ n, ∀ k, n ≤ k → (results k).bytes = []

/-- The function returns after finitely many calls, with the length that was wanted exactly if
that many bytes have been stored. -/
def ReturnsRight (aSize : Nat) (calls : Nat → Recv) : Prop :=
  ∃ k v, (calls k).returned = some v ∧ (v = aSize ↔ (calls k).aBuffer.length = aSize)

/-- The bytes of the first `k` results. -/
def arrived (results : Nat → RecvResult) : Nat → Nat
  | 0 => 0
  | k + 1 => arrived results k + (results k).bytes.length

/-- A call fails, or the bytes are there. -/
def Decided (aSize : Nat) (results : Nat → RecvResult) (k : Nat) : Prop :=
  (results k).isFailed = true ∨ arrived results (k + 1) = aSize

section Calls

variable {aSize : Nat} {results : Nat → RecvResult}

/-- The loop behind `k` calls of which none has decided it. -/
structure Waiting (results : Nat → RecvResult) (k : Nat) (s : Recv) : Prop where
  returned : s.returned = none
  sSize : s.sSize = arrived results k
  aBuffer : s.aBuffer.length = arrived results k

theorem waiting_call {k : Nat} {s : Recv} (h : Waiting results k s)
    (hnot : ¬Decided aSize results k) : Waiting results (k + 1) (s.call aSize (results k)) := by
  unfold Decided at hnot
  rw [not_or, arrived] at hnot
  have hret : (results k).sRet = (results k).bytes.length := by
    cases hr : results k with
    | data bytes => rfl
    | closed => rfl
    | failed sErrno =>
      rw [hr] at hnot
      exact absurd rfl hnot.1
  have hsize := h.sSize
  unfold Recv.call
  simp only [h.returned, hret]
  rw [if_neg (by omega), if_neg (by omega)]
  refine ⟨rfl, ?_, ?_⟩
  · rw [arrived]
    push_cast
    omega
  · rw [arrived]
    simp only [List.length_append, h.aBuffer]

theorem waiting_of_undecided (k : Nat) (h : ∀ j < k, ¬Decided aSize results j) :
    Waiting results k (recvCalls aSize results k) := by
  induction k with
  | zero => exact ⟨rfl, rfl, rfl⟩
  | succ k ih =>
    have hk := ih fun j hj => h j (Nat.lt_succ_of_lt hj)
    exact waiting_call hk (h k (Nat.lt_succ_self k))

/-- The call that decides the loop ends it: a failed one with -1, any other with the length. -/
theorem returned_of_decided {k : Nat} (hbefore : ∀ j < k, ¬Decided aSize results j)
    (hk : Decided aSize results k) :
    ((results k).isFailed = true ∧ (recvCalls aSize results (k + 1)).returned = some (-1) ∧
        (recvCalls aSize results (k + 1)).aBuffer.length = arrived results k) ∨
      ((recvCalls aSize results (k + 1)).returned = some (aSize : Int) ∧
        (recvCalls aSize results (k + 1)).aBuffer.length = aSize) := by
  have hwait := waiting_of_undecided k hbefore
  have hsize := hwait.sSize
  have hbuffer := hwait.aBuffer
  unfold Decided at hk
  rw [arrived] at hk
  rw [recvCalls]
  cases hr : results k with
  | failed sErrno =>
    rw [Recv.call_failed hwait.returned (by simp [RecvResult.sRet])]
    exact Or.inl ⟨rfl, rfl, hbuffer⟩
  | data bytes =>
    rw [hr] at hk
    have hsum : arrived results k + bytes.length = aSize :=
      hk.resolve_left (by simp [RecvResult.isFailed])
    have hall : (recvCalls aSize results k).sSize + (RecvResult.data bytes).sRet = aSize := by
      rw [hsize]
      exact congrArg Nat.cast hsum
    rw [Recv.call_done hwait.returned (Int.natCast_nonneg _) hall]
    exact Or.inr ⟨rfl, by rw [List.length_append, hbuffer]; exact hsum⟩
  | closed =>
    rw [hr] at hk
    have hsum : arrived results k + 0 = aSize :=
      hk.resolve_left (by simp [RecvResult.isFailed])
    have hall : (recvCalls aSize results k).sSize + RecvResult.closed.sRet = aSize := by
      rw [hsize]
      exact congrArg Nat.cast hsum
    rw [Recv.call_done (r := .closed) hwait.returned (Int.le_refl 0) hall]
    exact Or.inr ⟨rfl, by rw [List.length_append, hbuffer]; exact hsum⟩

/-- A loop that has returned stays as it is. -/
theorem recvCalls_returned {v : Int} {k : Nat}
    (h : (recvCalls aSize results k).returned = some v) (n : Nat) :
    recvCalls aSize results (k + n) = recvCalls aSize results k := by
  induction n with
  | zero => rfl
  | succ n ih =>
    rw [← Nat.add_assoc, recvCalls, ih, Recv.call]
    simp only [h]

/-- The state in which the loop has returned is the one behind the call that decided it. -/
theorem first_decided {k : Nat} {v : Int} (h : (recvCalls aSize results k).returned = some v) :
    ∃ j, Decided aSize results j ∧ (∀ i < j, ¬Decided aSize results i) ∧
      recvCalls aSize results k = recvCalls aSize results (j + 1) := by
  by_cases hex : ∃ j, Decided aSize results j
  · classical
    have hj := Nat.find_spec hex
    have hmin : ∀ i < Nat.find hex, ¬Decided aSize results i := fun i hi => Nat.find_min hex hi
    refine ⟨Nat.find hex, hj, hmin, ?_⟩
    have hlt : Nat.find hex < k := by
      by_contra hle
      have hwait : Waiting results k (recvCalls aSize results k) :=
        waiting_of_undecided k fun j hjk => hmin j (by omega)
      rw [hwait.returned] at h
      cases h
    obtain ⟨n, rfl⟩ : ∃ n, k = Nat.find hex + 1 + n := ⟨k - (Nat.find hex + 1), by omega⟩
    rcases returned_of_decided hmin hj with ⟨_, hret, _⟩ | ⟨hret, _⟩
    · exact recvCalls_returned hret n
    · exact recvCalls_returned hret n
  · have hwait : Waiting results k (recvCalls aSize results k) :=
      waiting_of_undecided k fun j _ hj => hex ⟨j, hj⟩
    rw [hwait.returned] at h
    cases h

/-- The bytes are not all there when a call fails that decides the loop, unless none was wanted. -/
theorem arrived_ne {j : Nat} (hbefore : ∀ i < j, ¬Decided aSize results i)
    (hsize : j = 0 → aSize ≠ 0) : arrived results j ≠ aSize := by
  cases j with
  | zero => exact fun h => hsize rfl h.symm
  | succ j => exact fun h => hbefore j (Nat.lt_succ_self j) (Or.inr h)

/-- The loop returns as it should exactly if a call fails or completes the message, and the one
call for an empty message does not fail. -/
theorem returnsRight_recvCalls :
    ReturnsRight aSize (recvCalls aSize results) ↔
      (∃ k, Decided aSize results k) ∧ (aSize = 0 → (results 0).isFailed = false) := by
  constructor
  · rintro ⟨k, v, hret, hv⟩
    obtain ⟨j, hj, hbefore, hstate⟩ := first_decided hret
    refine ⟨⟨j, hj⟩, fun hzero => ?_⟩
    subst hzero
    by_contra hfail
    rw [Bool.not_eq_false] at hfail
    have hfirst : j = 0 := by
      by_contra hne
      exact hbefore 0 (Nat.pos_of_ne_zero hne) (Or.inl hfail)
    subst hfirst
    rw [hstate] at hret hv
    rcases returned_of_decided hbefore hj with ⟨_, hfailed, hlen⟩ | ⟨hdone, _⟩
    · rw [hret] at hfailed
      cases hfailed
      rw [hlen] at hv
      exact absurd (hv.mpr rfl) (by decide)
    · rw [recvCalls, Recv.call] at hdone
      cases hr : results 0 with
      | failed sErrno =>
        rw [hr] at hdone
        cases hdone
      | data bytes =>
        rw [hr] at hfail
        cases hfail
      | closed =>
        rw [hr] at hfail
        cases hfail
  · rintro ⟨hex, hzero⟩
    classical
    have hj := Nat.find_spec hex
    have hmin : ∀ i < Nat.find hex, ¬Decided aSize results i := fun i hi => Nat.find_min hex hi
    rcases returned_of_decided hmin hj with ⟨hfail, hret, hlen⟩ | ⟨hret, hlen⟩
    · refine ⟨_, _, hret, ?_⟩
      have hne : arrived results (Nat.find hex) ≠ aSize := by
        apply arrived_ne hmin
        intro hfirst hempty
        rw [hfirst, hzero hempty] at hfail
        cases hfail
      rw [hlen]
      exact ⟨fun h => by omega, fun h => absurd h hne⟩
    · exact ⟨_, _, hret, fun _ => hlen, fun _ => rfl⟩

end Calls

/-- Both functions return, with the wanted length exactly if all the bytes have come, if and only
if some call fails or completes the message, and a call for an empty message does not fail. A peer
that closes the connection in the middle of a message is neither. -/
theorem recv_nn_returnsRight_iff (aSize : Nat) (results : Nat → RecvResult) :
    (ReturnsRight aSize (Host.recv_nn aSize results) ↔
        (∃ k, Decided aSize results k) ∧ (aSize = 0 → (results 0).isFailed = false)) ∧
      (ReturnsRight aSize (Target.recv_nn aSize results) ↔
        (∃ k, Decided aSize results k) ∧ (aSize = 0 → (results 0).isFailed = false)) :=
  ⟨returnsRight_recvCalls, returnsRight_recvCalls⟩

/-- Three bytes of a message of eight, and then the peer has closed. -/
def closedEarly (k : Nat) : RecvResult :=
  if k = 0 then .data [1, 2, 3] else .closed

theorem closedEarly_waiting (k : Nat) :
    recvCalls 8 closedEarly (k + 1) = ⟨3, 3, if k = 0 then 8 else 5, [1, 2, 3], none⟩ := by
  induction k with
  | zero => rfl
  | succ k ih =>
    rw [recvCalls, ih]
    cases k with
    | zero => rfl
    | succ k => rfl

/-- The loop never returns there, although the peer has closed. -/
theorem closedEarly_never_returns :
    ¬∀ (aSize : Nat) (results : Nat → RecvResult), Possible aSize results → Ended results →
      ReturnsRight aSize (Host.recv_nn aSize results) ∧
        ReturnsRight aSize (Target.recv_nn aSize results) := by
  intro h
  have hpossible : Possible (8 : Nat) closedEarly := by
    intro k bytes _ hk
    cases k with
    | zero =>
      cases hk
      decide
    | succ k => cases hk
  have hended : Ended closedEarly := by
    refine ⟨1, fun k hk => ?_⟩
    cases k with
    | zero => cases hk
    | succ k => rfl
  obtain ⟨⟨k, v, hret, _⟩, _⟩ := h 8 closedEarly hpossible hended
  cases k with
  | zero => cases hret
  | succ k =>
    have hnone : (recvCalls 8 closedEarly (k + 1)).returned = none := by
      rw [closedEarly_waiting]
    have hsome : (recvCalls 8 closedEarly (k + 1)).returned = some v := hret
    rw [hnone] at hsome
    cases hsome

end Natc.Agent
