import Natc.Client.SequentialWrap

/-!
# The request for the last clean-up

Outside the sequential mode the client runs through the suite once. The request of the case in the
last place of the list asks the service to unlink the directory behind it.
-/

namespace Natc.Client

open Lib

/-- An entry of `sInList` with its name. -/
structure NamedCase extends CaseInfo where
  caseName : Text
  deriving DecidableEq, Repr

/-- The options of a request that depend on the course of the loop. -/
structure Request where
  caseName : Text
  link : Text
  unlink : Text
  unlink2 : Option Text
  sBEGIN : Nat
  deriving DecidableEq, Repr

/-- `dirname` of the client: everything in front of the last separator, without number signs. -/
def dirname (staf : Staf) (aIn : Text) : Text :=
  let sCursor := (aIn.reverse.findIdx? (· = '/')).map fun k => aIn.length - k - 1
  staf.replace (aIn.take (sCursor.getD aIn.length)) ['#'] []

/-- The variables of the loop outside the sequential mode. `sRun` is a `UInt`. -/
structure CaseLoop where
  sRun : Nat
  sOld : Text
  sLink : Text
  sUnlink : Text
  sBEGIN : Nat
  deriving DecidableEq, Repr

namespace CaseLoop

def start : CaseLoop := ⟨0, [], [], [], 1⟩

/-- `sRun++` -/
def count (s : CaseLoop) : CaseLoop := { s with sRun := (s.sRun + 1) % 2 ^ 32 }

/-- The directories to link and unlink when a case lies in another one than the case before. -/
def enter (staf : Staf) (s : CaseLoop) (caseName : Text) : CaseLoop :=
  if dirname staf caseName ≠ s.sOld then
    { s with sUnlink := s.sOld, sLink := dirname staf caseName, sOld := dirname staf caseName }
  else { s with sLink := [], sUnlink := [] }

def request (staf : Staf) (size : Nat) (s : CaseLoop) (caseName : Text) : Request where
  caseName := caseName
  link := s.sLink
  unlink := s.sUnlink
  unlink2 := if s.sRun = size then some (dirname staf caseName) else none
  sBEGIN := s.sBEGIN

end CaseLoop

/-- The responses that leave the loop. -/
def leaves (staf : Staf) (r : Response) : Bool :=
  if r.rc = 0 then classify staf r.result = some .fatal ∨ classify staf r.result = none
  else r.rc = 2 ∨ r.rc = 21

/-- The loop from some entry on, with the answer that every case gets if it is run, and the
requests it submits. -/
def caseLoop (staf : Staf) (size : Nat) : CaseLoop → List (NamedCase × Response) → List Request
  | _, [] => []
  | s, (sIn, r) :: rest =>
      let s := s.count
      if sIn.skipped then caseLoop staf size s rest
      else if sIn.caseType = .sql then
        let s := s.enter staf sIn.caseName
        s.request staf size sIn.caseName ::
          if leaves staf r then [] else caseLoop staf size { s with sBEGIN := 0 } rest
      else caseLoop staf size s rest

/-- The loop of the client outside the sequential mode. -/
def normalLoop (staf : Staf) (sInList : List (NamedCase × Response)) : List Request :=
  caseLoop staf sInList.length .start sInList

/-- The last of the requests asks for the clean-up, and no other one. -/
def CleansUpOnce (requests : List Request) : Prop :=
  ∃ before last, requests = before ++ [last] ∧ last.unlink2.isSome = true ∧
    ∀ request ∈ before, request.unlink2 = none

/-- A case that is submitted when the loop gets there. -/
def NamedCase.Runs (sIn : NamedCase) : Prop :=
  sIn.caseType = .sql ∧ sIn.runnable = true

/-- The list ends with a case that is run, and no answer leaves the loop before. -/
def EndsWithCase (staf : Staf) (sInList : List (NamedCase × Response)) : Prop :=
  ∃ before last, sInList = before ++ [last] ∧ last.1.Runs ∧
    ∀ entry ∈ before, entry.1.Runs → leaves staf entry.2 = false

section Loop

variable {staf : Staf} {size : Nat}

/-- The sequential mode leaves its loop at the same responses. -/
theorem count_eq_none_iff (s : Loop) (r : Response) :
    s.count staf r = none ↔ leaves staf r = true := by
  unfold Loop.count leaves
  by_cases hrc : r.rc = 0
  · rw [if_pos hrc, if_pos hrc]
    cases classify staf r.result with
    | none => simp
    | some verdict => cases verdict <;> simp
  · rw [if_neg hrc, if_neg hrc]
    by_cases hleave : r.rc = 2 ∨ r.rc = 21
    · rw [if_pos hleave]
      simp [hleave]
    · rw [if_neg hleave]
      simp [hleave]

theorem runs_iff (sIn : NamedCase) : sIn.Runs ↔ ¬sIn.skipped ∧ sIn.caseType = .sql := by
  unfold NamedCase.Runs CaseInfo.skipped
  constructor
  · rintro ⟨hsql, hrun⟩
    exact ⟨fun h => Bool.false_ne_true (h.2.symm.trans hrun), hsql⟩
  · rintro ⟨hskip, hsql⟩
    refine ⟨hsql, ?_⟩
    by_contra hrun
    exact hskip ⟨Or.inr hsql, Bool.eq_false_iff.mpr hrun⟩

@[simp] theorem enter_sRun (s : CaseLoop) (caseName : Text) :
    (s.enter staf caseName).sRun = s.sRun := by
  unfold CaseLoop.enter
  split <;> rfl

/-- An entry that is no case to be run is passed over. -/
theorem caseLoop_pass {sIn : NamedCase} (h : ¬sIn.Runs) (s : CaseLoop) (r : Response)
    (rest : List (NamedCase × Response)) :
    caseLoop staf size s ((sIn, r) :: rest) = caseLoop staf size s.count rest := by
  rw [runs_iff] at h
  rw [caseLoop]
  by_cases hskip : sIn.skipped
  · exact if_pos hskip
  · have hsql : ¬sIn.caseType = .sql := fun hsql => h ⟨hskip, hsql⟩
    rw [if_neg hskip, if_neg hsql]

theorem caseLoop_run {sIn : NamedCase} (h : sIn.Runs) (s : CaseLoop) (r : Response)
    (rest : List (NamedCase × Response)) :
    ∃ request s', caseLoop staf size s ((sIn, r) :: rest) =
        request :: (if leaves staf r then [] else caseLoop staf size s' rest) ∧
      (request.unlink2.isSome = true ↔ s.count.sRun = size) ∧ s'.sRun = s.count.sRun := by
  rw [runs_iff] at h
  rw [caseLoop, if_neg h.1, if_pos h.2]
  refine ⟨_, { s.count.enter staf sIn.caseName with sBEGIN := 0 }, rfl, ?_, ?_⟩
  · unfold CaseLoop.request
    rw [enter_sRun]
    by_cases hlast : s.count.sRun = size
    · rw [if_pos hlast]
      exact ⟨fun _ => hlast, fun _ => rfl⟩
    · rw [if_neg hlast]
      exact ⟨fun h => absurd h Bool.false_ne_true, fun h => absurd h hlast⟩
  · exact enter_sRun _ _

theorem count_sRun {s : CaseLoop} {n : Nat} (h : s.sRun = n % 2 ^ 32) :
    s.count.sRun = (n + 1) % 2 ^ 32 := by
  show (s.sRun + 1) % 2 ^ 32 = _
  rw [h, Nat.mod_add_mod]

/-- No request has the flag in front of the last place, or anywhere in a list so long that the
counter overflows. -/
theorem caseLoop_unflagged {s : CaseLoop} {entries : List (NamedCase × Response)} {n : Nat}
    (hrun : s.sRun = n % 2 ^ 32) (hsize : 2 ^ 32 ≤ size ∨ n + entries.length < size) :
    ∀ request ∈ caseLoop staf size s entries, request.unlink2 = none := by
  induction entries generalizing s n with
  | nil =>
    intro request h
    cases h
  | cons entry rest ih =>
    obtain ⟨sIn, r⟩ := entry
    rw [List.length_cons] at hsize
    have hcount := count_sRun hrun
    have hne : s.count.sRun ≠ size := by
      rw [hcount]
      rcases hsize with hword | hlt
      · exact Nat.ne_of_lt (lt_of_lt_of_le (Nat.mod_lt _ (by decide)) hword)
      · exact Nat.ne_of_lt (lt_of_le_of_lt (Nat.mod_le _ _) (by omega))
    have hrest : 2 ^ 32 ≤ size ∨ n + 1 + rest.length < size := by
      rcases hsize with hword | hlt
      · exact Or.inl hword
      · exact Or.inr (by omega)
    by_cases hruns : sIn.Runs
    · obtain ⟨request, s', heq, hflag, hs'⟩ := caseLoop_run hruns s r rest
      rw [heq]
      intro other hmem
      rcases List.mem_cons.mp hmem with rfl | hmem
      · exact Option.not_isSome_iff_eq_none.mp fun h => hne (hflag.mp h)
      · cases hleave : leaves staf r with
        | true =>
          rw [hleave] at hmem
          cases hmem
        | false =>
          rw [hleave] at hmem
          exact ih (hs'.trans hcount) hrest other hmem
    · rw [caseLoop_pass hruns]
      exact ih hcount hrest

theorem not_cleansUpOnce {requests : List Request}
    (h : ∀ request ∈ requests, request.unlink2 = none) : ¬CleansUpOnce requests := by
  rintro ⟨before, last, rfl, hflag, _⟩
  rw [h last List.mem_concat_self] at hflag
  cases hflag

theorem cleansUpOnce_cons {request : Request} (h : request.unlink2 = none)
    (requests : List Request) : CleansUpOnce (request :: requests) ↔ CleansUpOnce requests := by
  constructor
  · rintro ⟨before, last, heq, hflag, hbefore⟩
    cases before with
    | nil =>
      cases heq
      rw [h] at hflag
      cases hflag
    | cons first before =>
      cases heq
      exact ⟨before, last, rfl, hflag, fun r hr => hbefore r (List.mem_cons_of_mem _ hr)⟩
  · rintro ⟨before, last, rfl, hflag, hbefore⟩
    refine ⟨request :: before, last, rfl, hflag, fun r hr => ?_⟩
    rcases List.mem_cons.mp hr with rfl | hr
    · exact h
    · exact hbefore r hr

theorem not_endsWithCase_nil : ¬EndsWithCase staf [] := by
  rintro ⟨before, last, heq, _⟩
  cases before <;> cases heq

theorem endsWithCase_one (entry : NamedCase × Response) :
    EndsWithCase staf [entry] ↔ entry.1.Runs := by
  constructor
  · rintro ⟨before, last, heq, hruns, _⟩
    cases before with
    | nil =>
      cases heq
      exact hruns
    | cons first before => cases before <;> cases heq
  · intro hruns
    exact ⟨[], entry, rfl, hruns, fun e he => absurd he List.not_mem_nil⟩

theorem endsWithCase_cons (entry : NamedCase × Response) {rest : List (NamedCase × Response)}
    (hne : rest ≠ []) : EndsWithCase staf (entry :: rest) ↔
      (entry.1.Runs → leaves staf entry.2 = false) ∧ EndsWithCase staf rest := by
  constructor
  · rintro ⟨before, last, heq, hruns, hbefore⟩
    cases before with
    | nil =>
      cases heq
      exact absurd rfl hne
    | cons first before =>
      cases heq
      exact ⟨hbefore _ List.mem_cons_self, before, last, rfl, hruns,
        fun e he => hbefore e (List.mem_cons_of_mem _ he)⟩
  · rintro ⟨hentry, before, last, rfl, hruns, hbefore⟩
    refine ⟨entry :: before, last, rfl, hruns, fun e he => ?_⟩
    rcases List.mem_cons.mp he with rfl | he
    · exact hentry
    · exact hbefore e he

/-- The flag, by the entries that are left. -/
theorem cleansUpOnce_caseLoop {s : CaseLoop} {entries : List (NamedCase × Response)} {n : Nat}
    (hrun : s.sRun = n % 2 ^ 32) (hsize : n + entries.length = size) (hword : size < 2 ^ 32) :
    CleansUpOnce (caseLoop staf size s entries) ↔ EndsWithCase staf entries := by
  induction entries generalizing s n with
  | nil =>
    exact ⟨fun h => absurd h (not_cleansUpOnce fun r hr => absurd hr List.not_mem_nil),
      fun h => absurd h not_endsWithCase_nil⟩
  | cons entry rest ih =>
    obtain ⟨sIn, r⟩ := entry
    rw [List.length_cons] at hsize
    have hcount := count_sRun hrun
    by_cases hruns : sIn.Runs
    · obtain ⟨request, s', heq, hflag, hs'⟩ := caseLoop_run hruns s r rest
      rw [heq]
      cases rest with
      | nil =>
        have hlast : request.unlink2.isSome = true := by
          rw [hflag, hcount]
          show (n + 1) % 2 ^ 32 = size
          rw [List.length_nil] at hsize
          rw [Nat.mod_eq_of_lt (by omega)]
          omega
        rw [endsWithCase_one]
        refine ⟨fun _ => hruns, fun _ => ⟨[], request, ?_, hlast,
          fun r hr => absurd hr List.not_mem_nil⟩⟩
        rw [caseLoop, ite_self]
        rfl
      | cons next rest =>
        rw [List.length_cons] at hsize
        have hnone : request.unlink2 = none := by
          refine Option.not_isSome_iff_eq_none.mp fun h => ?_
          have hat := hflag.mp h
          rw [hcount, Nat.mod_eq_of_lt (by omega)] at hat
          omega
        rw [cleansUpOnce_cons hnone, endsWithCase_cons _ (List.cons_ne_nil _ _)]
        cases hleave : leaves staf r with
        | true =>
          rw [if_pos rfl]
          exact ⟨fun h => absurd h (not_cleansUpOnce fun r hr => absurd hr List.not_mem_nil),
            fun h => absurd (h.1 hruns) (by decide)⟩
        | false =>
          rw [if_neg Bool.false_ne_true, ih (hs'.trans hcount) (by rw [List.length_cons]; omega)]
          exact ⟨fun h => ⟨fun _ => rfl, h⟩, fun h => h.2⟩
    · rw [caseLoop_pass hruns]
      cases rest with
      | nil =>
        rw [endsWithCase_one]
        exact ⟨fun h => absurd h (not_cleansUpOnce fun r hr => absurd hr List.not_mem_nil),
          fun h => absurd h hruns⟩
      | cons next rest =>
        rw [endsWithCase_cons _ (List.cons_ne_nil _ _),
          ih hcount (by rw [List.length_cons] at hsize ⊢; omega)]
        exact ⟨fun h => ⟨fun hcase => absurd hcase hruns, h⟩, fun h => h.2⟩

end Loop

/-- The clean-up is asked for once, with the last case that is run, exactly if the list ends with a
case that is run and gets there, and is not too long for the counter. -/
theorem cleansUpOnce_iff (staf : Staf) (sInList : List (NamedCase × Response)) :
    CleansUpOnce (normalLoop staf sInList) ↔
      EndsWithCase staf sInList ∧ sInList.length < 2 ^ 32 := by
  by_cases hword : sInList.length < 2 ^ 32
  · rw [normalLoop, cleansUpOnce_caseLoop (n := 0) rfl (Nat.zero_add _) hword]
    exact ⟨fun h => ⟨h, hword⟩, fun h => h.1⟩
  · have hnone : ∀ request ∈ caseLoop staf sInList.length .start sInList,
        request.unlink2 = none :=
      caseLoop_unflagged (n := 0) rfl (Or.inl (Nat.not_lt.mp hword))
    exact ⟨fun h => absurd h (not_cleansUpOnce hnone), fun h => absurd h.2 hword⟩

/-- A case that passes. -/
def passing (runnable : Bool) (caseName : Text) : NamedCase × Response :=
  (⟨⟨.sql, runnable⟩, caseName⟩, ⟨0, Verdict.pass.text⟩)

/-- With a case at the end that is not run, nothing is cleaned up behind the others. -/
theorem no_cleanup :
    ¬∀ (staf : Staf) (sInList : List (NamedCase × Response)),
      (∃ entry ∈ sInList, entry.1.Runs) → CleansUpOnce (normalLoop staf sInList) := by
  intro h
  have honce := h .ascii [passing true "/t/a.sql".toList, passing false "/t/b.sql".toList]
    ⟨passing true "/t/a.sql".toList, List.mem_cons_self, rfl, rfl⟩
  have hnone : ∀ request ∈ normalLoop .ascii
      [passing true "/t/a.sql".toList, passing false "/t/b.sql".toList], request.unlink2 = none := by
    decide
  exact not_cleansUpOnce hnone honce

end Natc.Client
