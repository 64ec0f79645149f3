import Natc.Client.Verdict
import Natc.Lib.Machine

/-!
# The loop of the sequential recovery test

The client repeats the test suite while recovery points are left: a point that is hit is erased
from the list, and the loop ends when the hit ratio exceeds the end condition. The iterators are
positions in their lists, so that using one that is at the end shows.
-/

namespace Natc.Client

open Lib

inductive CaseType where
  | sql | ts | tl | xml
  deriving DecidableEq, Repr

/-- An entry of `sInList`, with the answer of `runnable`. -/
structure CaseInfo where
  caseType : CaseType
  runnable : Bool
  deriving DecidableEq, Repr

/-- What `submit` returns. -/
structure Response where
  rc : Nat
  result : Text
  deriving DecidableEq, Repr

inductive Status where
  | running | stopped
  /-- `*sRecIterator` at the end of the list. -/
  | endDereferenced
  /-- `sHIT * 100 / sTotal` with `sTotal` 0. -/
  | dividedByZero
  deriving DecidableEq, Repr

/-- The variables of the loop. The counters are `UInt`. -/
structure Loop where
  sIterator : Nat
  gRecPtrList : List Text
  sRecIterator : Nat
  sHIT : Nat
  sCHKMISS : Nat
  status : Status
  deriving DecidableEq, Repr

/-- The initial value of `sEndCdt`. -/
def defaultEndCdt : Nat := 100

/-- `sTotal = gRecPtrList.size()`. -/
def total (points : List Text) : Nat := points.length % 2 ^ 32

/-- `sHIT * 100 / sTotal` in unsigned arithmetic. -/
def hitRatio (sTotal sHIT : Nat) : Nat := sHIT * 100 % 2 ^ 32 / sTotal

/-- The case distinction on the response; `none` leaves the loop. -/
def Loop.count (staf : Staf) (s : Loop) (r : Response) : Option Loop :=
  if r.rc = 0 then
    match classify staf r.result with
    | some .hit => some { s with
        gRecPtrList := s.gRecPtrList.eraseIdx s.sRecIterator
        sHIT := (s.sHIT + 1) % 2 ^ 32
        sCHKMISS := 0 }
    | some .miss => some { s with
        sCHKMISS := (s.sCHKMISS + 1) % 2 ^ 32
        sRecIterator :=
          if (s.sCHKMISS + 1) % 2 ^ 32 % 1 = 0 then s.sRecIterator + 1 else s.sRecIterator }
    | some .fatal => none
    | some _ => some s
    | none => none
  else if r.rc = 2 ∨ r.rc = 21 then none
  else some s

/-- The part behind the case: the end condition, and both iterators start over at the end. -/
def Loop.next (sEndCdt sTotal size : Nat) (s : Loop) : Loop :=
  if sTotal = 0 then { s with sIterator := s.sIterator + 1, status := .dividedByZero }
  else if sEndCdt < hitRatio sTotal s.sHIT then
    { s with sIterator := s.sIterator + 1, status := .stopped }
  else { s with
    sIterator := if s.sIterator + 1 = size then 0 else s.sIterator + 1
    sRecIterator := if s.sRecIterator = s.gRecPtrList.length then 0 else s.sRecIterator }

/-- One round of the loop; the response is used when the entry is a case that is run. -/
def Loop.round (staf : Staf) (sEndCdt sTotal : Nat) (suite : List CaseInfo) (s : Loop)
    (r : Response) : Loop :=
  match suite[s.sIterator]? with
  | none => { s with status := .stopped }
  | some sIn =>
      if (sIn.caseType = .ts ∨ sIn.caseType = .sql) ∧ sIn.runnable = false then
        { s with sIterator := s.sIterator + 1 }
      else if sIn.caseType = .sql then
        if s.gRecPtrList.length ≤ s.sRecIterator then { s with status := .endDereferenced }
        else
          match s.count staf r with
          | none => { s with status := .stopped }
          | some s' => s'.next sEndCdt sTotal suite.length
      else s.next sEndCdt sTotal suite.length

/-- The loop on a suite, from the choice of the first recovery point on. -/
def sequentialLoop (staf : Staf) (sEndCdt : Nat) (points : List Text) (suite : List CaseInfo) :
    Machine Loop Response where
  start := ⟨0, points, 0, 0, 0, .running⟩
  step s r :=
    if s.status = .running then some (s.round staf sEndCdt (total points) suite r) else none

/-- No iterator is used at its end, nothing is divided by zero, and once every point has been hit
the loop does not run on. -/
structure Sound (points : List Text) (s : Loop) : Prop where
  inRange : s.status ≠ .endDereferenced
  nonzero : s.status ≠ .dividedByZero
  stops : points ≠ [] → s.gRecPtrList = [] → s.status ≠ .running

/-- Some number of hits the list allows brings the hit ratio above the end condition. -/
def Ends (points : List Text) (sEndCdt : Nat) : Prop :=
  total points ≠ 0 ∧
    ∃ k ≤ points.length, sEndCdt < hitRatio (total points) (k % 2 ^ 32)

/-- For lists of a usual size the end condition has to be below 100. -/
theorem ends_iff (points : List Text) (sEndCdt : Nat) (h : points.length * 100 < 2 ^ 32) :
    Ends points sEndCdt ↔ points ≠ [] ∧ sEndCdt < 100 := by
  have htotal : total points = points.length := Nat.mod_eq_of_lt (by omega)
  have hratio : ∀ k ≤ points.length,
      hitRatio (total points) (k % 2 ^ 32) = k * 100 / points.length := by
    intro k hk
    rw [htotal, hitRatio, Nat.mod_eq_of_lt (a := k) (by omega), Nat.mod_eq_of_lt (by omega)]
  constructor
  · rintro ⟨hpos, k, hk, hlt⟩
    refine ⟨fun hnil => hpos (by simp [total, hnil]), ?_⟩
    rw [hratio k hk] at hlt
    have hle : k * 100 / points.length ≤ 100 :=
      Nat.div_le_of_le_mul (Nat.mul_le_mul_right 100 hk)
    omega
  · rintro ⟨hne, hlt⟩
    have hpos := List.length_pos_of_ne_nil hne
    refine ⟨by omega, points.length, le_rfl, ?_⟩
    rwa [hratio _ le_rfl, Nat.mul_div_cancel_left _ hpos]

/-- What holds while the loop is running: the iterator refers to a point, the hits are the erased
points, and no hit ratio so far was above the end condition. -/
structure Going (points : List Text) (sEndCdt : Nat) (s : Loop) : Prop where
  inList : s.sRecIterator < s.gRecPtrList.length
  short : s.gRecPtrList.length ≤ points.length
  hits : s.sHIT = (points.length - s.gRecPtrList.length) % 2 ^ 32
  below : ∀ k ≤ points.length - s.gRecPtrList.length,
    hitRatio (total points) (k % 2 ^ 32) ≤ sEndCdt

/-- What the case distinction leaves for the part behind it. -/
structure Handled (points : List Text) (sEndCdt : Nat) (s : Loop) : Prop where
  running : s.status = .running
  inList : s.sRecIterator ≤ s.gRecPtrList.length
  short : s.gRecPtrList.length ≤ points.length
  hits : s.sHIT = (points.length - s.gRecPtrList.length) % 2 ^ 32
  below : ∀ k < points.length - s.gRecPtrList.length,
    hitRatio (total points) (k % 2 ^ 32) ≤ sEndCdt

/-- The invariant of the loop. -/
def Kept (points : List Text) (sEndCdt : Nat) (s : Loop) : Prop :=
  s.status = .stopped ∨ s.status = .running ∧ Going points sEndCdt s

section Round

variable {points : List Text} {sEndCdt : Nat} {s : Loop}

private theorem Going.handled (h : Going points sEndCdt s) (hrun : s.status = .running) :
    Handled points sEndCdt s where
  running := hrun
  inList := h.inList.le
  short := h.short
  hits := h.hits
  below k hk := h.below k hk.le

/-- A hit moves one point from the list to the count; no other response touches either. -/
private theorem Going.count (h : Going points sEndCdt s) (hrun : s.status = .running)
    (staf : Staf) (r : Response) {s' : Loop} (hs : s.count staf r = some s') :
    Handled points sEndCdt s' := by
  have hkeep := h.handled hrun
  unfold Loop.count at hs
  split at hs
  · split at hs
    · cases hs
      have hlen := List.length_eraseIdx_of_lt h.inList
      have hin := h.inList
      have hshort := h.short
      have hone : points.length - (s.gRecPtrList.length - 1) =
          points.length - s.gRecPtrList.length + 1 := by omega
      refine ⟨hrun, ?_, ?_, ?_, ?_⟩
      · simp only [hlen]
        omega
      · simp only [hlen]
        omega
      · simp only [hlen, hone, h.hits, Nat.mod_add_mod]
      · intro k hk
        simp only [hlen, hone] at hk
        exact h.below k (Nat.lt_succ_iff.mp hk)
    · cases hs
      have hin := h.inList
      refine ⟨hrun, ?_, h.short, h.hits, hkeep.below⟩
      simp only [Nat.mod_one, if_true]
      omega
    · cases hs
    · cases hs
      exact hkeep
    · cases hs
  · split at hs
    · cases hs
    · cases hs
      exact hkeep

/-- Behind the end condition the loop has stopped, or the iterator refers to a point again. -/
private theorem Handled.next (h : Handled points sEndCdt s) (hends : Ends points sEndCdt)
    (size : Nat) : Kept points sEndCdt (s.next sEndCdt (total points) size) := by
  unfold Loop.next
  rw [if_neg hends.1]
  split
  · exact .inl rfl
  · rename_i hratio
    have hbelow : ∀ k ≤ points.length - s.gRecPtrList.length,
        hitRatio (total points) (k % 2 ^ 32) ≤ sEndCdt := by
      intro k hk
      rcases hk.lt_or_eq with hk | rfl
      · exact h.below k hk
      · exact h.hits ▸ not_lt.mp hratio
    -- with an empty list every ratio would have stayed below the end condition
    have hne : s.gRecPtrList.length ≠ 0 := by
      intro hnil
      obtain ⟨k, hk, hlt⟩ := hends.2
      have hle := hbelow k (by omega)
      omega
    have hin := h.inList
    refine .inr ⟨h.running, ?_, h.short, h.hits, hbelow⟩
    simp only
    split <;> omega

theorem Kept.round (h : Kept points sEndCdt s) (hends : Ends points sEndCdt) (staf : Staf)
    (suite : List CaseInfo) (r : Response) (hrun : s.status = .running) :
    Kept points sEndCdt (s.round staf sEndCdt (total points) suite r) := by
  have hgoing : Going points sEndCdt s := by
    rcases h with h | ⟨_, h⟩
    · simp [h] at hrun
    · exact h
  unfold Loop.round
  split
  · exact .inl rfl
  · split
    · exact .inr ⟨hrun, hgoing.inList, hgoing.short, hgoing.hits, hgoing.below⟩
    · split
      · rw [if_neg (not_le.mpr hgoing.inList)]
        split
        · exact .inl rfl
        · rename_i s' hs
          exact (hgoing.count hrun staf r hs).next hends _
      · exact (hgoing.handled hrun).next hends _

end Round

/-- Under the end condition the loop is sound on every suite and for all responses. -/
theorem sound_of_ends (staf : Staf) (sEndCdt : Nat) (points : List Text)
    (suite : List CaseInfo) (hends : Ends points sEndCdt) (s : Loop)
    (h : (sequentialLoop staf sEndCdt points suite).Reachable s) : Sound points s := by
  have hne : points ≠ [] := fun hnil => hends.1 (by simp [total, hnil])
  have hstart : Kept points sEndCdt (sequentialLoop staf sEndCdt points suite).start := by
    refine .inr ⟨rfl, List.length_pos_of_ne_nil hne, le_rfl, ?_, fun k hk => ?_⟩
    · simp [sequentialLoop]
    · have hzero : k = 0 := by simpa [sequentialLoop] using hk
      simp [hzero, hitRatio]
  have hkept : Kept points sEndCdt s := by
    refine h.invariant hstart fun s r s' hs _ hstep => ?_
    simp only [sequentialLoop] at hstep
    split at hstep
    · rename_i hrun
      cases hstep
      exact hs.round hends staf suite r hrun
    · cases hstep
  rcases hkept with hstop | ⟨hrun, hgoing⟩
  · exact ⟨by simp [hstop], by simp [hstop], fun _ _ => by simp [hstop]⟩
  · refine ⟨by simp [hrun], by simp [hrun], fun _ hnil => ?_⟩
    have hin := hgoing.inList
    simp [hnil] at hin

section Converse

variable (staf : Staf) (sEndCdt : Nat) (points : List Text)

/-- A suite of one SQL case. -/
def oneCase : List CaseInfo := [⟨.sql, true⟩]

/-- The answer to a case that hit its recovery point. -/
def hitResponse : Response := ⟨0, Verdict.hit.text⟩

private theorem classify_hit : classify staf Verdict.hit.text = some .hit :=
  (classify_eq_some_iff staf _ _).mpr ⟨List.infix_rfl, by decide⟩

/-- As long as no hit ratio exceeds the end condition, case after case hits its point. -/
private theorem reachable_hits (htotal : total points ≠ 0)
    (hbelow : ∀ k ≤ points.length, hitRatio (total points) (k % 2 ^ 32) ≤ sEndCdt) (k : Nat)
    (hk : k ≤ points.length) :
    (sequentialLoop staf sEndCdt points oneCase).Reachable
      ⟨0, points.drop k, 0, k % 2 ^ 32, 0, .running⟩ := by
  induction k with
  | zero => exact .start
  | succ k ih =>
    refine .next (l := hitResponse) (ih (by omega)) trivial ?_
    have hlen : (points.drop k).length = points.length - k := List.length_drop
    have herase : (points.drop k).eraseIdx 0 = points.drop (k + 1) := by
      rw [List.eraseIdx_zero, List.tail_drop]
    have hratio := hbelow (k + 1) hk
    have hin : points.length - k ≠ 0 := by omega
    simpa [sequentialLoop, Loop.round, oneCase, Loop.count, hitResponse, classify_hit,
      Loop.next, htotal, herase, hin] using hratio

/-- The loop is sound on every suite and for all responses exactly when the end condition can be
exceeded. -/
theorem sound_iff_ends :
    (∀ suite s, (sequentialLoop staf sEndCdt points suite).Reachable s → Sound points s) ↔
      Ends points sEndCdt := by
  refine ⟨fun hsound => ?_, fun hends suite s h =>
    sound_of_ends staf sEndCdt points suite hends s h⟩
  by_contra hnot
  by_cases htotal : total points = 0
  · have hzero := hsound [⟨.ts, true⟩] ⟨1, points, 0, 0, 0, .dividedByZero⟩
      (.next (l := hitResponse) .start trivial
        (by simp [sequentialLoop, Loop.round, Loop.next, htotal]))
    exact hzero.nonzero rfl
  · have hne : points ≠ [] := fun hnil => htotal (by simp [total, hnil])
    have hbelow : ∀ k ≤ points.length, hitRatio (total points) (k % 2 ^ 32) ≤ sEndCdt := by
      intro k hk
      by_contra hlt
      exact hnot ⟨htotal, k, hk, not_le.mp hlt⟩
    have hall := hsound oneCase _
      (reachable_hits staf sEndCdt points htotal hbelow points.length le_rfl)
    exact hall.stops hne (by simp) rfl

end Converse

/-- With the default end condition the loop runs on when its only point has been hit, and takes
the next point from the empty list. -/
theorem loop_runs_on :
    ∃ s, (sequentialLoop .ascii defaultEndCdt ["smrRecoveryMgr.cpp:100".toList] oneCase).Reachable
      s ∧ s.gRecPtrList = [] ∧ s.status = .endDereferenced ∧
      ¬ Sound ["smrRecoveryMgr.cpp:100".toList] s := by
  obtain ⟨s, hs, hend⟩ := Machine.exists_reach_of_exec
    (sequentialLoop .ascii defaultEndCdt ["smrRecoveryMgr.cpp:100".toList] oneCase)
    (fun _ _ => true) (fun s => s.gRecPtrList = [] ∧ s.status = .endDereferenced)
    [hitResponse, hitResponse] (by decide)
  simp only [Bool.decide_and, Bool.and_eq_true, decide_eq_true_eq] at hend
  exact ⟨s, hs.mono fun _ _ _ => trivial, hend.1, hend.2, fun h => h.inRange hend.2⟩

end Natc.Client
