import Mathlib.Data.Finset.Card
import Mathlib.Data.Fintype.Card
import Mathlib.Data.Fintype.Basic
import Natc.Lib.Machine
import Natc.Lib.Text

/-!
# The limit point of the limit test

The servers under test call `allimPointPass` at every limit point they go through; the point that
is set fires at each `mCount`-th pass of a thread. The threads share a table of slots, and every
call runs under the spin lock of the point.
-/

namespace Natc.Allim

open Lib

/-- `ALLIM_LIMITPOINT_MAX_THREADS`. -/
def maxThreads : Nat := 256

/-- A thread ID; the slot value 0 stands for a free slot, so no thread has it. -/
abbrev ThreadID := {t : Nat // t ≠ 0}

/-- What the core library provides: its string functions and `ACP_PATH_MAX_LENGTH`. -/
structure Acp where
  strCpy : Text → Nat → Text
  strCmp : Text → Text → Nat → Int
  pathMaxLength : Nat

/-- `ALLIM_LIMITPOINT_MAX_LENGTH`. -/
def limitPointMaxLength : Nat := 64

/-- `ALLIM_LIMITPOINT_EVERY`. -/
def everywhere : Text := "EVERYWHERE".toList

/-- The fields of `allimPoint` that setting and passing use. All numbers fit 32 bits. -/
structure AllimPoint where
  mFile : Text
  mID : Text
  mErrNo : Int
  mCount : Int
  mHitCounts : Fin maxThreads → Int
  mThreadIDs : Fin maxThreads → Nat

/-- The point behind `allimCreate`. -/
def AllimPoint.created : AllimPoint := ⟨[], [], 0, 0, fun _ => 0, fun _ => 0⟩

inductive Rc where
  | success | enospc
  deriving DecidableEq, Repr

/-- What `allimPointPass` returns: its code, `*aErrNo` and `*aHit`. -/
structure PassResult where
  rc : Rc
  errNo : Int
  hit : Bool
  deriving DecidableEq, Repr

/-- An empty file or ID keeps the old one. -/
def allimPointSet (acp : Acp) (p : AllimPoint) (aFile aID : Text) (aCount aErrNo : Int) :
    AllimPoint :=
  { p with
    mFile := if aFile = [] then p.mFile else acp.strCpy aFile acp.pathMaxLength
    mID := if aID = [] then p.mID else acp.strCpy aID limitPointMaxLength
    mCount := aCount
    mErrNo := aErrNo
    mHitCounts := fun _ => aCount }

/-- The scan of `allimPointPass` and `allimPointDone`: the first slot that holds the thread or is
free. -/
def AllimPoint.scan (p : AllimPoint) (sThrID : ThreadID) : Option (Fin maxThreads) :=
  (List.finRange maxThreads).find? fun i => sThrID = p.mThreadIDs i ∨ 0 = p.mThreadIDs i

/-- The file name behind its last slash. -/
def passDirectory (aFile : Text) : Text := (aFile.reverse.takeWhile (· ≠ '/')).reverse

/-- How a pass relates to the point that is set. -/
inductive Compared where
  /-- The point is set for every file or every ID. -/
  | always
  /-- File and ID are those of the point, and the pass counts. -/
  | counted
  | other
  deriving DecidableEq, Repr

def AllimPoint.compare (acp : Acp) (p : AllimPoint) (aFile aID : Text) : Compared :=
  if acp.strCmp p.mFile everywhere acp.pathMaxLength = 0 then .always
  else if acp.strCmp p.mFile (passDirectory aFile) acp.pathMaxLength = 0 then
    if acp.strCmp p.mID everywhere limitPointMaxLength = 0 then .always
    else if acp.strCmp p.mID aID limitPointMaxLength = 0 then .counted
    else .other
  else .other

/-- The slot is marked with the thread. -/
def AllimPoint.enter (p : AllimPoint) (i : Fin maxThreads) (sThrID : Nat) : AllimPoint :=
  { p with mThreadIDs := Function.update p.mThreadIDs i sThrID }

def AllimPoint.setHitCount (p : AllimPoint) (i : Fin maxThreads) (n : Int) : AllimPoint :=
  { p with mHitCounts := Function.update p.mHitCounts i n }

/-- `allimPointPass` behind the attachment of the shared memory. -/
def allimPointPass (acp : Acp) (point : AllimPoint) (sThrID : ThreadID) (aFile aID : Text) :
    AllimPoint × PassResult :=
  match point.scan sThrID with
  | none => (point, ⟨.enospc, 0, false⟩)
  | some i =>
      let p := point.enter i sThrID
      match p.compare acp aFile aID with
      | .always => (p, ⟨.success, p.mErrNo, true⟩)
      | .other => (p, ⟨.success, 0, false⟩)
      | .counted =>
          let sHitCount := p.mHitCounts i - 1
          if sHitCount = 0 then (p.setHitCount i p.mCount, ⟨.success, p.mErrNo, true⟩)
          else (p.setHitCount i sHitCount, ⟨.success, 0, false⟩)

/-- `allimPointDone` behind the attachment of the shared memory. -/
def allimPointDone (point : AllimPoint) (sThrID : ThreadID) : AllimPoint × Rc :=
  match point.scan sThrID with
  | none => (point, .enospc)
  | some i => (point.enter i 0, .success)

/-- The thread occupies a slot. -/
def AllimPoint.holds (p : AllimPoint) (t : ThreadID) : Bool :=
  (List.finRange maxThreads).any fun i => p.mThreadIDs i = t

/-- A call of the limit test. A point is set with a count of at least 1. -/
inductive Call where
  | set (aFile aID : Text) (aCount aErrNo : Int)
  | pass (thread : ThreadID) (aFile aID : Text)
  | done (thread : ThreadID)

def Call.thread : Call → Option ThreadID
  | .set .. => none
  | .pass t .. | .done t => some t

/-- A matching pass: the count of the point, the number of matching passes of the thread since it
last entered the table or the point was set, this one included, and whether it fired. -/
structure Passed where
  thread : ThreadID
  count : Int
  k : Nat
  hit : Bool
  deriving DecidableEq, Repr

/-- The point with two histories: how often each thread has passed it since it last entered the
table or the point was set, and all matching passes. -/
structure Limit where
  point : AllimPoint
  passes : ThreadID → Nat
  log : List Passed

/-- The matching passes a thread has made when it calls `allimPointPass`; a thread that holds no
slot enters the table with this call. -/
def Limit.before (s : Limit) (t : ThreadID) : Nat :=
  if s.point.holds t then s.passes t else 0

def Limit.step (acp : Acp) (s : Limit) : Call → Option Limit
  | .set aFile aID aCount aErrNo =>
      if 1 ≤ aCount then
        some ⟨allimPointSet acp s.point aFile aID aCount aErrNo, fun _ => 0, s.log⟩
      else none
  | .pass t aFile aID =>
      let out := allimPointPass acp s.point t aFile aID
      let k := s.before t
      some <|
        if s.point.compare acp aFile aID = .counted then
          ⟨out.1, Function.update s.passes t (k + 1),
            s.log ++ [⟨t, s.point.mCount, k + 1, out.2.hit⟩]⟩
        else ⟨out.1, Function.update s.passes t k, s.log⟩
  | .done t => some { s with
      point := (allimPointDone s.point t).1, passes := Function.update s.passes t 0 }

/-- The limit test from the creation of the shared memory on. -/
def limitTest (acp : Acp) : Machine Limit Call where
  start := ⟨.created, fun _ => 0, []⟩
  step := Limit.step acp

/-- No thread occupies two slots. -/
def OneSlot (p : AllimPoint) : Prop :=
  ∀ i j, p.mThreadIDs i ≠ 0 → p.mThreadIDs i = p.mThreadIDs j → i = j

/-- The `k`-th matching pass fires if and only if the count divides `k`. -/
def Counted (s : Limit) : Prop :=
  ∀ e ∈ s.log, 1 ≤ e.count → (e.hit = true ↔ e.count ∣ (e.k : Int))

/-- The scan of a thread that holds a slot stops at that slot, and a thread that enters gets a slot
whose countdown is fresh. -/
def orderly (s : Limit) (c : Call) : Bool :=
  match c with
  | .set .. => true
  | .pass t .. =>
      (s.point.scan t).all fun i =>
        if s.point.holds t then s.point.mThreadIDs i = t
        else s.point.mHitCounts i = s.point.mCount
  | .done t => (s.point.scan t).all fun i => !s.point.holds t || s.point.mThreadIDs i = t

section Scan

variable {p : AllimPoint} {t : ThreadID} {i : Fin maxThreads}

theorem holds_iff : p.holds t = true ↔ ∃ i, p.mThreadIDs i = t := by
  simp only [AllimPoint.holds, List.any_eq_true, List.mem_finRange, true_and, decide_eq_true_eq]

theorem scan_some (h : p.scan t = some i) : p.mThreadIDs i = t ∨ p.mThreadIDs i = 0 := by
  have hi := List.find?_some h
  rw [decide_eq_true_eq] at hi
  exact hi.imp Eq.symm Eq.symm

private theorem scan_none_busy (h : p.scan t = none) (i : Fin maxThreads) :
    p.mThreadIDs i ≠ t ∧ p.mThreadIDs i ≠ 0 := by
  have hi := List.find?_eq_none.mp h i (List.mem_finRange i)
  rw [decide_eq_true_eq, not_or] at hi
  exact ⟨Ne.symm hi.1, Ne.symm hi.2⟩

/-- A full table in which every thread has one slot leaves no thread out. -/
theorem scan_none (threads : Finset ThreadID) (hcard : threads.card ≤ maxThreads)
    (hmem : ∀ i, p.mThreadIDs i ≠ 0 → ∃ u ∈ threads, p.mThreadIDs i = u) (hone : OneSlot p)
    (ht : t ∈ threads) : p.scan t ≠ none := by
  intro hscan
  have hbusy := scan_none_busy hscan
  let owner : Fin maxThreads → ThreadID := fun i => ⟨p.mThreadIDs i, (hbusy i).2⟩
  have hinj : Function.Injective owner := fun i j hij =>
    hone i j (hbusy i).2 (congrArg Subtype.val hij)
  have hsub : Finset.univ.map ⟨owner, hinj⟩ ⊆ threads.erase t := by
    intro u hu
    obtain ⟨i, _, rfl⟩ := Finset.mem_map.mp hu
    obtain ⟨v, hv, hiv⟩ := hmem i (hbusy i).2
    have howner : owner i ∈ threads := (Subtype.ext hiv : owner i = v) ▸ hv
    exact Finset.mem_erase.mpr ⟨fun h => (hbusy i).1 (congrArg Subtype.val h), howner⟩
  have hle := Finset.card_le_card hsub
  rw [Finset.card_map, Finset.card_univ, Fintype.card_fin, Finset.card_erase_of_mem ht] at hle
  have hpos := Finset.card_pos.mpr ⟨t, ht⟩
  omega

end Scan

/-- The countdown from `N` that is set back when it reaches 0, after `k` and `k + 1` passes. -/
theorem countdown_step {N : Int} (hN : 1 ≤ N) (k : Int) :
    (N - k % N - 1 = 0 ↔ N ∣ k + 1) ∧
      (if N - k % N - 1 = 0 then N else N - k % N - 1) = N - (k + 1) % N := by
  have hlo := Int.emod_nonneg k (by omega : N ≠ 0)
  have hhi := Int.emod_lt_of_pos k (by omega : 0 < N)
  have hnext : (k + 1) % N = (k % N + 1) % N := (Int.emod_add_emod k N 1).symm
  rw [Int.dvd_iff_emod_eq_zero, hnext]
  by_cases hlast : k % N + 1 = N
  · have hzero : (k % N + 1) % N = 0 := by rw [hlast, Int.emod_self]
    rw [hzero, if_pos (by omega)]
    omega
  · have hsame : (k % N + 1) % N = k % N + 1 := Int.emod_eq_of_lt (by omega) (by omega)
    rw [hsame, if_neg (by omega)]
    omega

/-- The invariant of the limit test with a set of threads. -/
structure Orderly (threads : Finset ThreadID) (s : Limit) : Prop where
  members : ∀ i, s.point.mThreadIDs i ≠ 0 → ∃ t ∈ threads, s.point.mThreadIDs i = t
  oneSlot : OneSlot s.point
  countdown : 1 ≤ s.point.mCount → ∀ (t : ThreadID) i, s.point.mThreadIDs i = t →
    s.point.mHitCounts i = s.point.mCount - (s.passes t : Int) % s.point.mCount
  counted : Counted s

namespace Orderly

variable {threads : Finset ThreadID} {s : Limit} {t : ThreadID} {i : Fin maxThreads}

theorem start (acp : Acp) (threads : Finset ThreadID) : Orderly threads (limitTest acp).start where
  members i hi := absurd rfl hi
  oneSlot i j hi := absurd rfl hi
  countdown hN := by simp [limitTest, AllimPoint.created] at hN
  counted e he := by simp [limitTest] at he

theorem set (h : Orderly threads s) (acp : Acp) (aFile aID : Text) (aCount aErrNo : Int) :
    Orderly threads ⟨allimPointSet acp s.point aFile aID aCount aErrNo, fun _ => 0, s.log⟩ where
  members := h.members
  oneSlot := h.oneSlot
  countdown _ u j _ := by simp [allimPointSet]
  counted := h.counted

/-- A slot is given back. -/
theorem leave (h : Orderly threads s) (hi : s.point.mThreadIDs i = t ∨
    s.point.mThreadIDs i = 0 ∧ s.point.holds t = false) :
    Orderly threads ⟨s.point.enter i 0, Function.update s.passes t 0, s.log⟩ := by
  have hold : ∀ j, (s.point.enter i 0).mThreadIDs j ≠ 0 →
      (s.point.enter i 0).mThreadIDs j = s.point.mThreadIDs j ∧ j ≠ i := by
    intro j hj
    by_cases hji : j = i
    · simp [AllimPoint.enter, hji] at hj
    · simp [AllimPoint.enter, hji]
  refine ⟨fun j hj => ?_, fun j k hj hjk => ?_, fun hN u j hu => ?_, h.counted⟩
  · have hmem := h.members j ((hold j hj).1 ▸ hj)
    rwa [(hold j hj).1]
  · have hk := hjk ▸ hj
    rw [(hold j hj).1, (hold k hk).1] at hjk
    exact h.oneSlot j k ((hold j hj).1 ▸ hj) hjk
  · obtain ⟨hsame, hne⟩ := hold j (hu ▸ u.2)
    rw [hsame] at hu
    have hut : u ≠ t := by
      rintro rfl
      rcases hi with hi | ⟨_, hnot⟩
      · exact hne (h.oneSlot j i (hu ▸ u.2) (hu.trans hi.symm))
      · rw [holds_iff.mpr ⟨j, hu⟩] at hnot
        cases hnot
    have hcount := h.countdown hN u j hu
    simpa [AllimPoint.enter, hut] using hcount

theorem done (h : Orderly threads s) (hok : orderly s (.done t)) :
    Orderly threads ⟨(allimPointDone s.point t).1, Function.update s.passes t 0, s.log⟩ := by
  unfold allimPointDone
  cases hscan : s.point.scan t with
  | none =>
    refine ⟨h.members, h.oneSlot, fun hN u j hu => ?_, h.counted⟩
    have hut : u ≠ t := by
      rintro rfl
      exact (scan_none_busy hscan j).1 hu
    simpa [hut] using h.countdown hN u j hu
  | some i =>
    simp only [orderly, hscan, Option.all_some, Bool.or_eq_true, Bool.not_eq_true',
      decide_eq_true_eq] at hok
    rcases hok with hnot | hi
    · have hfree : s.point.mThreadIDs i = 0 := (scan_some hscan).resolve_left fun hi => by
        simp [holds_iff.mpr ⟨i, hi⟩] at hnot
      exact h.leave (.inr ⟨hfree, hnot⟩)
    · exact h.leave (.inl hi)

/-- The slot a pass of `t` goes through: it becomes or stays the only slot of `t`, and its countdown
agrees with the passes of `t`. -/
structure Entered (threads : Finset ThreadID) (s : Limit) (t : ThreadID) (i : Fin maxThreads) :
    Prop where
  members : ∀ j, (s.point.enter i t).mThreadIDs j ≠ 0 →
    ∃ u ∈ threads, (s.point.enter i t).mThreadIDs j = u
  oneSlot : OneSlot (s.point.enter i t)
  others : ∀ (u : ThreadID) j, (s.point.enter i t).mThreadIDs j = u → j ≠ i →
    u ≠ t ∧ s.point.mThreadIDs j = u
  countdown : 1 ≤ s.point.mCount →
    s.point.mHitCounts i = s.point.mCount - (s.before t : Int) % s.point.mCount

theorem entered (h : Orderly threads s) (ht : t ∈ threads) (hscan : s.point.scan t = some i)
    {aFile aID : Text} (hok : orderly s (.pass t aFile aID)) : Entered threads s t i := by
  have hother : ∀ j, j ≠ i → (s.point.enter i t).mThreadIDs j = s.point.mThreadIDs j :=
    fun j hj => by simp [AllimPoint.enter, hj]
  have hself : (s.point.enter i t).mThreadIDs i = t := by simp [AllimPoint.enter]
  simp only [orderly, hscan, Option.all_some] at hok
  -- nobody else's slot is taken, and `t` has no second one
  have honly : ∀ j, j ≠ i → s.point.mThreadIDs j ≠ t := by
    intro j hj hjt
    rw [if_pos (holds_iff.mpr ⟨j, hjt⟩), decide_eq_true_eq] at hok
    exact hj (h.oneSlot j i (hjt ▸ t.2) (hjt.trans hok.symm))
  refine ⟨fun j hj => ?_, fun j k hj hjk => ?_, fun u j hu hj => ?_, fun hN => ?_⟩
  · by_cases hji : j = i
    · exact ⟨t, ht, hji ▸ hself⟩
    · rw [hother j hji] at hj ⊢
      exact h.members j hj
  · by_cases hji : j = i
    · subst j
      by_contra hki
      rw [hself, hother k (Ne.symm hki)] at hjk
      exact honly k (Ne.symm hki) hjk.symm
    · by_cases hki : k = i
      · subst k
        rw [hself, hother j hji] at hjk
        exact absurd hjk (honly j hji)
      · rw [hother j hji] at hj hjk
        rw [hother k hki] at hjk
        exact h.oneSlot j k hj hjk
  · rw [hother j hj] at hu
    exact ⟨fun hut => honly j hj (hut ▸ hu), hu⟩
  · unfold Limit.before
    split at hok
    · rename_i hholds
      rw [if_pos hholds]
      exact h.countdown hN t i (of_decide_eq_true hok)
    · rename_i hholds
      rw [if_neg hholds, of_decide_eq_true hok]
      simp

/-- A pass that does not count down. -/
private theorem pass_uncounted (h : Orderly threads s) (he : Entered threads s t i) :
    Orderly threads ⟨s.point.enter i t, Function.update s.passes t (s.before t), s.log⟩ where
  members := he.members
  oneSlot := he.oneSlot
  countdown hN u j hu := by
    by_cases hj : j = i
    · subst j
      have hut : u = t := Subtype.ext (by simpa [AllimPoint.enter, eq_comm] using hu)
      simpa [hut, AllimPoint.enter] using he.countdown hN
    · obtain ⟨hut, hold⟩ := he.others u j hu hj
      simpa [hut, AllimPoint.enter] using h.countdown hN u j hold
  counted := h.counted

/-- A pass that counts down: the slot is set to what the step of the countdown leaves. -/
private theorem pass_counted (h : Orderly threads s) (he : Entered threads s t i) {n : Int}
    {hit : Bool}
    (hn : n = if s.point.mHitCounts i - 1 = 0 then s.point.mCount else s.point.mHitCounts i - 1)
    (hhit : hit = true ↔ s.point.mHitCounts i - 1 = 0) :
    Orderly threads ⟨(s.point.enter i t).setHitCount i n,
      Function.update s.passes t (s.before t + 1),
      s.log ++ [⟨t, s.point.mCount, s.before t + 1, hit⟩]⟩ where
  members := he.members
  oneSlot := he.oneSlot
  countdown hN u j hu := by
    have hN : 1 ≤ s.point.mCount := hN
    by_cases hj : j = i
    · subst j
      have hut : u = t := Subtype.ext
        (by simpa [AllimPoint.setHitCount, AllimPoint.enter, eq_comm] using hu)
      have hstep := (countdown_step hN (s.before t)).2
      rw [← he.countdown hN, ← hn] at hstep
      simpa [hut, AllimPoint.setHitCount, AllimPoint.enter] using hstep
    · obtain ⟨hut, hold⟩ := he.others u j hu hj
      simpa [hut, hj, AllimPoint.setHitCount, AllimPoint.enter] using h.countdown hN u j hold
  counted e hmem hN := by
    rcases List.mem_append.mp hmem with hmem | hmem
    · exact h.counted e hmem hN
    · obtain rfl := List.mem_singleton.mp hmem
      have hstep := (countdown_step hN (s.before t)).1
      rw [← he.countdown hN] at hstep
      rw [hhit, hstep]
      simp

theorem pass (h : Orderly threads s) (hcard : threads.card ≤ maxThreads) (acp : Acp)
    {aFile aID : Text} (ht : t ∈ threads) (hok : orderly s (.pass t aFile aID)) {s' : Limit}
    (hs : s.step acp (.pass t aFile aID) = some s') : Orderly threads s' := by
  cases hscan : s.point.scan t with
  | none => exact absurd hscan (scan_none threads hcard h.members h.oneSlot ht)
  | some i =>
    have he := h.entered ht hscan hok
    have hcompare : (s.point.enter i t).compare acp aFile aID = s.point.compare acp aFile aID := rfl
    simp only [Limit.step, allimPointPass, hscan, hcompare, Option.some.injEq] at hs
    cases hc : s.point.compare acp aFile aID with
    | always | other =>
      simp only [hc, reduceCtorEq, if_false] at hs
      exact hs ▸ h.pass_uncounted he
    | counted =>
      simp only [hc, if_true] at hs
      have hcounts : (s.point.enter i t).mHitCounts i = s.point.mHitCounts i := rfl
      rw [hcounts] at hs
      by_cases hzero : s.point.mHitCounts i - 1 = 0
      · rw [if_pos hzero] at hs
        exact hs ▸ h.pass_counted he (by rw [if_pos hzero]; rfl) (by simp [hzero])
      · rw [if_neg hzero] at hs
        exact hs ▸ h.pass_counted he (by rw [if_neg hzero]) (by simp [hzero])

end Orderly

/-- A run of the limit test with a set of threads. -/
def admitted (threads : Finset ThreadID) (s : Limit) (c : Call) : Prop :=
  (∀ t ∈ c.thread, t ∈ threads) ∧ orderly s c

/-- With at most as many threads as the table has slots, in every run in which no thread is led to
another slot than its own and every entered slot has a fresh countdown, each thread occupies at
most one slot and its `k`-th matching pass fires if and only if the count divides `k`. -/
theorem counted_of_orderly (acp : Acp) (threads : Finset ThreadID)
    (hcard : threads.card ≤ maxThreads) (s : Limit)
    (h : (limitTest acp).Reach (admitted threads) s) : OneSlot s.point ∧ Counted s := by
  have hinv : Orderly threads s := by
    refine h.invariant (.start acp threads) ?_
    rintro s c s' hs ⟨hthread, hok⟩ hstep
    cases c with
    | set aFile aID aCount aErrNo =>
      simp only [limitTest, Limit.step] at hstep
      split at hstep
      · cases hstep
        exact hs.set acp aFile aID aCount aErrNo
      · cases hstep
    | pass t aFile aID => exact hs.pass hcard acp (hthread t rfl) hok hstep
    | done t =>
      cases hstep
      exact hs.done hok
  exact ⟨hinv.oneSlot, hinv.counted⟩

section Hole

def plainAcp : Acp where
  strCpy s n := s.take (n - 1)
  strCmp a b n := if a.take n = b.take n then 0 else 1
  pathMaxLength := 1024

def thread1 : ThreadID := ⟨1, by decide⟩

def thread2 : ThreadID := ⟨2, by decide⟩

/-- Thread 2 sits behind thread 1 in the table when thread 1 leaves. -/
def holeRun : List Call :=
  [.set "AFile".toList "AID".toList 2 28, .pass thread1 "AFile".toList "AID".toList,
    .pass thread1 "AFile".toList "AID".toList, .pass thread2 "AFile".toList "AID".toList,
    .done thread1, .pass thread2 "AFile".toList "AID".toList]

/-- Thread 2 occupies the first two slots, and its second pass has not fired. -/
def doubled (s : Limit) : Bool :=
  s.point.mThreadIDs ⟨0, by decide⟩ = 2 ∧ s.point.mThreadIDs ⟨1, by decide⟩ = 2 ∧
    ⟨thread2, 2, 2, false⟩ ∈ s.log

/-- A hole below its slot gives a thread a second slot and another countdown. -/
theorem counted_lost_by_hole :
    ∃ s, (limitTest plainAcp).Reachable s ∧ ¬ OneSlot s.point ∧ ¬ Counted s := by
  obtain ⟨s, hs, hdouble⟩ := Machine.exists_reach_of_exec (limitTest plainAcp) (fun _ _ => true)
    doubled holeRun (by decide +kernel)
  simp only [doubled, Bool.decide_and, Bool.and_eq_true, decide_eq_true_eq] at hdouble
  obtain ⟨hfirst, hsecond, hlog⟩ := hdouble
  refine ⟨s, hs.mono fun _ _ _ => trivial, fun hone => ?_, fun hcounted => ?_⟩
  · have hij := hone ⟨0, by decide⟩ ⟨1, by decide⟩ (by rw [hfirst]; decide)
      (hfirst.trans hsecond.symm)
    revert hij
    decide
  · have hhit := hcounted _ hlog (by decide)
    revert hhit
    decide

/-- The first thread leaves, and the second takes over its slot after a full countdown. -/
theorem counted_of_orderly_two :
    ∃ s, ⟨thread2, 2, 1, false⟩ ∈ s.log ∧ OneSlot s.point ∧ Counted s := by
  obtain ⟨s, hs, hlog⟩ := Machine.exists_reach_of_exec (limitTest plainAcp)
    (fun s c => (c.thread.all fun t => t ∈ ({thread1, thread2} : Finset ThreadID)) && orderly s c)
    (fun s => ⟨thread2, 2, 1, false⟩ ∈ s.log)
    [.set "AFile".toList "AID".toList 2 28, .pass thread1 "AFile".toList "AID".toList,
      .pass thread1 "AFile".toList "AID".toList, .done thread1,
      .pass thread2 "AFile".toList "AID".toList] (by decide +kernel)
  refine ⟨s, by simpa using hlog, counted_of_orderly plainAcp {thread1, thread2} (by decide) s ?_⟩
  refine hs.mono fun s c hok => ?_
  simpa [admitted, Option.all_eq_true] using hok

end Hole

end Natc.Allim
