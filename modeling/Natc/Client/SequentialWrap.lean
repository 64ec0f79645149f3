import Natc.Client.SequentialLoop

/-!
# Where the sequential loop starts over

The iterator goes back to the first entry in the part behind the case. An entry that is not
runnable leaves the body of the loop before that part.
-/

namespace Natc.Client

open Lib

/-- The loop goes on without the part behind the case. -/
def CaseInfo.skipped (sIn : CaseInfo) : Prop :=
  (sIn.caseType = .ts ∨ sIn.caseType = .sql) ∧ sIn.runnable = false

instance (sIn : CaseInfo) : Decidable sIn.skipped :=
  inferInstanceAs (Decidable (_ ∧ _))

/-- Whenever the loop still runs behind the last entry, it goes on with the first one. -/
def Wraps (staf : Staf) (sEndCdt : Nat) (points : List Text) (suite : List CaseInfo) : Prop :=
  ∀ s r s', (sequentialLoop staf sEndCdt points suite).Reachable s →
    s.sIterator + 1 = suite.length →
    (sequentialLoop staf sEndCdt points suite).step s r = some s' → s'.status = .running →
    s'.sIterator = 0

section Round

variable {staf : Staf} {sEndCdt : Nat} {points : List Text} {suite : List CaseInfo} {s s' : Loop}
  {r : Response}

theorem step_eq (h : (sequentialLoop staf sEndCdt points suite).step s r = some s') :
    s.status = .running ∧ s' = s.round staf sEndCdt (total points) suite r := by
  change (if s.status = .running then _ else none) = some s' at h
  by_cases hrun : s.status = .running
  · rw [if_pos hrun] at h
    exact ⟨hrun, (Option.some.inj h).symm⟩
  · rw [if_neg hrun] at h
    cases h

theorem count_sIterator (h : s.count staf r = some s') : s'.sIterator = s.sIterator := by
  unfold Loop.count at h
  split at h
  · split at h <;> cases h <;> rfl
  · split at h <;> cases h
    rfl

theorem round_skipped {sIn : CaseInfo} (hentry : suite[s.sIterator]? = some sIn)
    (hskip : sIn.skipped) {sTotal : Nat} :
    s.round staf sEndCdt sTotal suite r = { s with sIterator := s.sIterator + 1 } := by
  unfold Loop.round
  rw [hentry]
  exact if_pos hskip

/-- An entry that is not skipped ends the loop, or reaches the part behind the case. -/
theorem round_handled {sIn : CaseInfo} (hentry : suite[s.sIterator]? = some sIn)
    (hskip : ¬sIn.skipped) {sTotal : Nat}
    (hrun : (s.round staf sEndCdt sTotal suite r).status = .running) :
    ∃ t : Loop, t.sIterator = s.sIterator ∧
      s.round staf sEndCdt sTotal suite r = t.next sEndCdt sTotal suite.length := by
  unfold Loop.round at hrun ⊢
  rw [hentry] at hrun ⊢
  dsimp only at hrun ⊢
  unfold CaseInfo.skipped at hskip
  rw [if_neg hskip] at hrun ⊢
  by_cases hsql : sIn.caseType = .sql
  · rw [if_pos hsql] at hrun ⊢
    by_cases hend : s.gRecPtrList.length ≤ s.sRecIterator
    · rw [if_pos hend] at hrun
      cases hrun
    · rw [if_neg hend] at hrun ⊢
      cases hcount : s.count staf r with
      | none =>
        rw [hcount] at hrun
        cases hrun
      | some t => exact ⟨t, count_sIterator hcount, rfl⟩
  · rw [if_neg hsql]
    exact ⟨s, rfl, rfl⟩

/-- Behind a case the loop runs on only with a list of points that is not empty. -/
theorem next_running {t : Loop} {sTotal size : Nat}
    (h : (t.next sEndCdt sTotal size).status = .running) :
    sTotal ≠ 0 ∧ (t.next sEndCdt sTotal size).sIterator =
      if t.sIterator + 1 = size then 0 else t.sIterator + 1 := by
  unfold Loop.next at h ⊢
  by_cases hzero : sTotal = 0
  · rw [if_pos hzero] at h
    cases h
  · rw [if_neg hzero] at h ⊢
    by_cases hend : sEndCdt < hitRatio sTotal t.sHIT
    · rw [if_pos hend] at h
      cases h
    · rw [if_neg hend]
      exact ⟨hzero, rfl⟩

/-- An answer that neither counts as a hit or a miss nor ends the loop. -/
def otherError : Response := ⟨1, []⟩

theorem count_otherError (s : Loop) : s.count staf otherError = some s := by
  unfold Loop.count otherError
  rw [if_neg (by decide), if_neg (by decide)]

theorem round_otherError (htotal : total points ≠ 0) {k : Nat} (hk : k + 1 < suite.length) :
    Loop.round staf sEndCdt (total points) suite ⟨k, points, 0, 0, 0, .running⟩ otherError =
      ⟨k + 1, points, 0, 0, 0, .running⟩ := by
  have hpoints : points.length ≠ 0 := by
    intro hzero
    apply htotal
    rw [total, hzero, Nat.zero_mod]
  have hnext : Loop.next sEndCdt (total points) suite.length ⟨k, points, 0, 0, 0, .running⟩ =
      ⟨k + 1, points, 0, 0, 0, .running⟩ := by
    simp only [Loop.next, if_neg htotal, hitRatio, Nat.zero_mul, Nat.zero_mod, Nat.zero_div,
      Nat.not_lt_zero, if_false, if_neg (Nat.ne_of_lt hk), if_neg (Ne.symm hpoints)]
  obtain ⟨sIn, hentry⟩ : ∃ sIn, suite[k]? = some sIn :=
    ⟨_, List.getElem?_eq_getElem (Nat.lt_of_succ_lt hk)⟩
  by_cases hskip : sIn.skipped
  · exact round_skipped hentry hskip
  · unfold Loop.round
    unfold CaseInfo.skipped at hskip
    simp only [hentry, count_otherError, hnext, if_neg hskip, Nat.le_zero, if_neg hpoints, ite_self]

/-- With such answers every entry is reached. -/
theorem reachable_entry (htotal : total points ≠ 0) {k : Nat} (hk : k < suite.length) :
    (sequentialLoop staf sEndCdt points suite).Reachable ⟨k, points, 0, 0, 0, .running⟩ := by
  induction k with
  | zero => exact .start
  | succ k ih =>
    refine .next (l := otherError) (ih (by omega)) trivial ?_
    show some (Loop.round staf sEndCdt (total points) suite _ otherError) = _
    rw [round_otherError htotal hk]

/-- Without points the loop runs on past skipped entries only. -/
theorem skipped_before (htotal : total points = 0)
    (h : (sequentialLoop staf sEndCdt points suite).Reachable s) (hrun : s.status = .running) :
    ∀ k < s.sIterator, ∀ sIn, suite[k]? = some sIn → sIn.skipped := by
  refine h.invariant (I := fun s => s.status = .running → ∀ k < s.sIterator, ∀ sIn,
    suite[k]? = some sIn → sIn.skipped) ?_ ?_ hrun
  · intro _ k hk
    exact absurd hk (Nat.not_lt_zero k)
  · intro s r s' ih _ hstep hrun' k hk sIn hentry
    obtain ⟨hrun, rfl⟩ := step_eq hstep
    cases hhere : suite[s.sIterator]? with
    | none =>
      unfold Loop.round at hrun'
      rw [hhere] at hrun'
      cases hrun'
    | some entry =>
      by_cases hskip : entry.skipped
      · rw [round_skipped hhere hskip] at hk
        rcases Nat.lt_succ_iff_lt_or_eq.mp hk with hlt | rfl
        · exact ih hrun k hlt sIn hentry
        · rw [hhere] at hentry
          cases hentry
          exact hskip
      · obtain ⟨t, _, hnext⟩ := round_handled hhere hskip hrun'
        rw [hnext] at hrun'
        exact absurd htotal (next_running hrun').1

end Round

/-- With a runnable case in the suite, the loop always starts over behind the last entry exactly
if that entry is not skipped. (A load without recovery points does not get that far.) -/
theorem wraps_iff (staf : Staf) (sEndCdt : Nat) (points : List Text) (suite : List CaseInfo)
    (hcase : ∃ sIn ∈ suite, sIn.caseType = .sql ∧ sIn.runnable = true) :
    Wraps staf sEndCdt points suite ↔
      total points = 0 ∨ ∀ sIn, suite.getLast? = some sIn → ¬sIn.skipped := by
  rw [List.getLast?_eq_getElem?]
  constructor
  · intro hwraps
    by_contra hnot
    push Not at hnot
    obtain ⟨htotal, sIn, hlast, hskip⟩ := hnot
    have hpos : 0 < suite.length := by
      by_contra hzero
      rw [List.getElem?_eq_none (by omega)] at hlast
      cases hlast
    have hreach : (sequentialLoop staf sEndCdt points suite).Reachable
        ⟨suite.length - 1, points, 0, 0, 0, .running⟩ :=
      reachable_entry htotal (Nat.sub_lt hpos Nat.zero_lt_one)
    have hzero := hwraps _ otherError _ hreach (Nat.sub_add_cancel hpos)
      (by
        show some (Loop.round staf sEndCdt (total points) suite _ otherError) = _
        rw [round_skipped hlast hskip]) rfl
    exact absurd hzero (Nat.succ_ne_zero _)
  · intro hcond s r s' hreach hat hstep hrun'
    obtain ⟨hrun, rfl⟩ := step_eq hstep
    have hindex : suite.length - 1 = s.sIterator := by omega
    obtain ⟨last, hentry⟩ : ∃ last, suite[s.sIterator]? = some last :=
      ⟨_, List.getElem?_eq_getElem (by omega)⟩
    rw [hindex] at hcond
    have hskip : ¬last.skipped := by
      rcases hcond with htotal | hlast
      · intro hskip
        obtain ⟨sIn, hmem, hsql, hrunnable⟩ := hcase
        obtain ⟨k, hk, hget⟩ := List.getElem_of_mem hmem
        have hat' : suite[k]? = some sIn := by rw [List.getElem?_eq_getElem hk, hget]
        have hall : sIn.skipped := by
          rcases Nat.lt_or_eq_of_le (show k ≤ s.sIterator by omega) with hlt | heq
          · exact skipped_before htotal hreach hrun k hlt sIn hat'
          · rw [heq, hentry] at hat'
            cases hat'
            exact hskip
        rw [hall.2] at hrunnable
        cases hrunnable
      · exact hlast _ hentry
    obtain ⟨t, ht, hnext⟩ := round_handled hentry hskip hrun'
    rw [hnext] at hrun' ⊢
    rw [(next_running hrun').2, ht, if_pos hat]

/-- Two runnable cases. -/
theorem wraps_two :
    Wraps .ascii 50 ["smrRecoveryMgr.cpp:100".toList] [⟨.sql, true⟩, ⟨.sql, true⟩] :=
  (wraps_iff .ascii 50 ["smrRecoveryMgr.cpp:100".toList] [⟨.sql, true⟩, ⟨.sql, true⟩]
    ⟨⟨.sql, true⟩, List.mem_cons_self, rfl, rfl⟩).mpr
      (Or.inr fun sIn h => by
        cases h
        decide)

/-- A case that is not runnable at the end of the suite: the iterator passes the end. -/
theorem passes_end :
    ¬∀ (staf : Staf) (sEndCdt : Nat) (points : List Text) (suite : List CaseInfo),
      (∃ sIn ∈ suite, sIn.caseType = .sql ∧ sIn.runnable = true) →
        Wraps staf sEndCdt points suite := by
  intro h
  have hwraps := h .ascii 50 ["smrRecoveryMgr.cpp:100".toList] [⟨.sql, true⟩, ⟨.sql, false⟩]
    ⟨⟨.sql, true⟩, List.mem_cons_self, rfl, rfl⟩
  have hzero := hwraps ⟨1, ["smrRecoveryMgr.cpp:100".toList], 0, 0, 0, .running⟩ otherError
    ⟨2, ["smrRecoveryMgr.cpp:100".toList], 0, 0, 0, .running⟩
    (.next (l := otherError) .start trivial (by decide)) rfl (by decide) rfl
  cases hzero

end Natc.Client
