import Natc.Ats.ArtTest

/-!
# Recovery points after a kill

In the full test a laborer that finds the server killed by a recovery point puts the last
recovery-point command back in front of its queue. The command stands in a variable of `runReal`,
which a laborer leaves whenever its queue is empty.
-/

namespace Natc.Ats

open Lib

/-- The commands that `runReal` handles itself: `sIsNormalString` is set for them. -/
def CommandKind.normalString : CommandKind → Bool
  | .stringCom | .restartCom | .appendCom | .envCom | .systemCom | .rsystemCom | .start1Com
  | .start2Com | .postCom | .waitCom | .skipCom | .shellCom => true
  | _ => false

/-- The last recovery-point command of a list that has the latest command first. -/
def lastRecpoint (executed : List QueryData) : Option QueryData :=
  executed.find? (·.type = .recpointCom)

/-- The service thread with what its laborers have executed, in all and since they entered
`runReal`, the latest command first. `due` is what each laborer should execute from now on. -/
structure Rearm (ι : Type*) where
  art : ArtServicer ι
  executed : ι → List QueryData
  since : ι → List QueryData
  due : ι → List QueryData

/-- A laborer whose queue is empty leaves `runReal`; `sQueryRecPtr` is a new variable when it enters
it again. -/
inductive RearmStep (ι : Type*)
  | art (l : ArtStep ι)
  | leave (i : ι) (sQueryRecPtr : QueryData)

namespace Rearm

variable {ι : Type*} [DecidableEq ι]

/-- The next command of `runReal`. -/
def take (s : Rearm ι) (i : ι) (q : QueryData) (rest : List QueryData) : Rearm ι where
  art :=
    if q.type.normalString then s.art.set i { s.art.laborer i with mQuery := rest }
    else s.art.take i q rest
  executed := Function.update s.executed i (q :: s.executed i)
  since := Function.update s.since i (q :: s.since i)
  due := Function.update s.due i (s.due i).tail

/-- Behind a kill the last recovery-point command is due, if there is one. -/
def raise (s : Rearm ι) (i : ι) : Rearm ι :=
  { s with
    art := s.art.raise .full i
    due := Function.update s.due i ((lastRecpoint (s.executed i)).toList ++ s.due i) }

def run (p0 : ι) (s : Rearm ι) (i : ι) (found : Bool) : Option (Rearm ι) :=
  match (s.art.laborer i).pc with
  | .runReal =>
      match (s.art.laborer i).mQuery with
      | [] => none
      | q :: rest => some (s.take i q rest)
  | .raising => some (s.raise i)
  | _ => (s.art.run .full p0 i found).map fun art => { s with art := art }

def leave (s : Rearm ι) (i : ι) (sQueryRecPtr : QueryData) : Rearm ι :=
  { s with
    art := s.art.set i { s.art.laborer i with queryRecPtr := sQueryRecPtr }
    since := Function.update s.since i [] }

def step (p0 : ι) (s : Rearm ι) : RearmStep ι → Option (Rearm ι)
  | .art (.run i found) => s.run p0 i found
  | .art (.push i q) =>
      (s.art.step .full p0 (.push i q)).map fun art =>
        { s with
          art := art
          due := Function.update s.due i (s.due i ++ [q]) }
  | .art (.die kill) => (s.art.step .full p0 (.die kill)).map fun art => { s with art := art }
  | .art .restart => (s.art.step .full p0 .restart).map fun art => { s with art := art }
  | .leave i sQueryRecPtr =>
      if (s.art.laborer i).pc = .runReal ∧ (s.art.laborer i).mQuery = [] then
        some (s.leave i sQueryRecPtr)
      else none

/-- The full test begins. -/
def machine (p0 : ι) : Machine (Rearm ι) (RearmStep ι) where
  start := ⟨(ArtServicer.machine .full p0).start, fun _ => [], fun _ => [], fun _ => []⟩
  step := step p0

end Rearm

/-- What is promised: the queue of each laborer is what the laborer should execute. -/
def Rearmed {ι : Type*} (s : Rearm ι) : Prop := ∀ i, (s.art.laborer i).mQuery = s.due i

/-- A laborer that finds a kill has executed a recovery-point command since it entered
`runReal`. -/
def Armed {ι : Type*} (s : Rearm ι) : RearmStep ι → Prop
  | .art (.run i _) => (s.art.laborer i).pc = .raising → ∃ q ∈ s.since i, q.type = .recpointCom
  | _ => True

section Steps

variable {ι : Type*} [DecidableEq ι] {s s' : ArtServicer ι} {i : ι}

@[simp] theorem ArtServicer.laborer_set (s : ArtServicer ι) (i j : ι) (l : ArtLaborer) :
    (s.set i l).laborer j = if j = i then l else s.laborer j :=
  Function.update_apply ..

/-- Elsewhere a laborer leaves the queues and the remembered commands as they are. -/
theorem ArtServicer.run_keeps {kind : ATSTestKind} {p0 : ι} {found : Bool}
    (hpc : (s.laborer i).pc ≠ .runReal) (hraise : (s.laborer i).pc ≠ .raising)
    (h : s.run kind p0 i found = some s') (j : ι) :
    (s'.laborer j).mQuery = (s.laborer j).mQuery ∧
      (s'.laborer j).queryRecPtr = (s.laborer j).queryRecPtr := by
  have hset : ∀ (t : ArtServicer ι) (l : ArtLaborer), t.laborer = s.laborer →
      l.mQuery = (s.laborer i).mQuery → l.queryRecPtr = (s.laborer i).queryRecPtr →
      ((t.set i l).laborer j).mQuery = (s.laborer j).mQuery ∧
        ((t.set i l).laborer j).queryRecPtr = (s.laborer j).queryRecPtr := by
    intro t l ht hq hr
    rw [ArtServicer.laborer_set, ht]
    split
    · rename_i hj
      subst j
      exact ⟨hq, hr⟩
    · exact ⟨rfl, rfl⟩
  unfold ArtServicer.run at h
  dsimp only at h
  cases hcase : (s.laborer i).pc with
  | runReal => exact absurd hcase hpc
  | raising => exact absurd hcase hraise
  | ended | aborted =>
    rw [hcase] at h
    cases h
  | retrying =>
    rw [hcase] at h
    dsimp only at h
    split at h <;> cases h <;> exact hset _ _ rfl rfl rfl
  | _ =>
    rw [hcase] at h
    cases h
    exact hset _ _ rfl rfl rfl

end Steps

section Runs

variable {ι : Type*}

/-- The queues are as promised, and what a laborer has executed since it entered `runReal` is known
to its variable. -/
structure RearmInv (s : Rearm ι) : Prop where
  rearmed : Rearmed s
  since : ∀ i, ∃ older, s.executed i = s.since i ++ older
  remembered : ∀ i q, lastRecpoint (s.since i) = some q → (s.art.laborer i).queryRecPtr = q

/-- A step that leaves the queues, the variables and the notes as they are. -/
private theorem RearmInv.keep {s : Rearm ι} (h : RearmInv s) {art : ArtServicer ι}
    (hart : ∀ j, (art.laborer j).mQuery = (s.art.laborer j).mQuery ∧
      (art.laborer j).queryRecPtr = (s.art.laborer j).queryRecPtr) :
    RearmInv { s with art := art } where
  rearmed j := (hart j).1.trans (h.rearmed j)
  since := h.since
  remembered j q hq := (hart j).2.trans (h.remembered j q hq)

variable [DecidableEq ι] {p0 : ι} {s s' : Rearm ι}

theorem rearmInv_start : RearmInv (Rearm.machine p0).start where
  rearmed _ := rfl
  since _ := ⟨[], rfl⟩
  remembered _ _ h := by cases h

private theorem lastRecpoint_append {since older : List QueryData} {q : QueryData}
    (h : lastRecpoint since = some q) : lastRecpoint (since ++ older) = some q := by
  have hfind : since.find? (·.type = .recpointCom) = some q := h
  rw [lastRecpoint, List.find?_append, hfind]
  rfl

theorem RearmInv.take (h : RearmInv s) {i : ι} {q : QueryData} {rest : List QueryData}
    (hqueue : (s.art.laborer i).mQuery = q :: rest) : RearmInv (s.take i q rest) := by
  have hlaborer : ∀ j, j ≠ i → (s.take i q rest).art.laborer j = s.art.laborer j := by
    intro j hj
    rw [Rearm.take]
    split <;> simp [ArtServicer.take, hj]
  have hself : ((s.take i q rest).art.laborer i).mQuery = rest ∧
      ((s.take i q rest).art.laborer i).queryRecPtr =
        if q.type = .recpointCom then q else (s.art.laborer i).queryRecPtr := by
    rw [Rearm.take]
    split
    · rename_i hnormal
      have htype : q.type ≠ .recpointCom := by
        intro htype
        rw [htype] at hnormal
        cases hnormal
      simp [htype]
    · simp [ArtServicer.take]
  refine ⟨fun j => ?_, fun j => ?_, fun j r hr => ?_⟩
  · by_cases hj : j = i
    · subst j
      show _ = Function.update s.due i (s.due i).tail i
      rw [Function.update_self, hself.1, ← h.rearmed i, hqueue]
      rfl
    · show _ = Function.update s.due i (s.due i).tail j
      rw [Function.update_of_ne hj, hlaborer j hj]
      exact h.rearmed j
  · obtain ⟨older, holder⟩ := h.since j
    refine ⟨older, ?_⟩
    by_cases hj : j = i
    · subst j
      simp [Rearm.take, holder]
    · simp [Rearm.take, hj, holder]
  · by_cases hj : j = i
    · subst j
      have hlast : lastRecpoint (q :: s.since i) = some r := by simpa [Rearm.take] using hr
      rw [hself.2]
      by_cases htype : q.type = .recpointCom
      · rw [if_pos htype]
        simpa [lastRecpoint, htype] using hlast
      · rw [if_neg htype]
        exact h.remembered i r (by simpa [lastRecpoint, htype] using hlast)
    · rw [hlaborer j hj]
      exact h.remembered j r (by simpa [Rearm.take, hj] using hr)

/-- What is put in front of the queue is right if and only if it is the last recovery-point
command. -/
theorem rearmed_raise_iff (h : Rearmed s) (i : ι) :
    Rearmed (s.raise i) ↔ lastRecpoint (s.executed i) = some (s.art.laborer i).queryRecPtr := by
  have hself : ((s.raise i).art.laborer i).mQuery =
      (s.art.laborer i).queryRecPtr :: (s.art.laborer i).mQuery := by
    simp [Rearm.raise, ArtServicer.raise]
  have hdue : (s.raise i).due i = (lastRecpoint (s.executed i)).toList ++ s.due i :=
    Function.update_self ..
  constructor
  · intro hraised
    have heq := hraised i
    rw [hself, hdue, h i] at heq
    cases hlast : lastRecpoint (s.executed i) with
    | none =>
      rw [hlast] at heq
      have hlength := congrArg List.length heq
      simp at hlength
    | some q =>
      rw [hlast] at heq
      exact congrArg some (List.cons.inj heq).1.symm
  · intro hlast j
    by_cases hj : j = i
    · subst j
      rw [hself, hdue, hlast, h i]
      rfl
    · have hother : (s.raise i).art.laborer j = s.art.laborer j := by
        simp [Rearm.raise, ArtServicer.raise, hj]
      have hdueOther : (s.raise i).due j = s.due j := Function.update_of_ne hj ..
      rw [hother, hdueOther]
      exact h j

theorem RearmInv.raise (h : RearmInv s) {i : ι}
    (harmed : ∃ q ∈ s.since i, q.type = .recpointCom) : RearmInv (s.raise i) := by
  obtain ⟨q, hq, htype⟩ := harmed
  have hsome : (lastRecpoint (s.since i)).isSome :=
    List.find?_isSome.mpr ⟨q, hq, by simpa using htype⟩
  obtain ⟨r, hr⟩ := Option.isSome_iff_exists.mp hsome
  obtain ⟨older, holder⟩ := h.since i
  have hlast : lastRecpoint (s.executed i) = some (s.art.laborer i).queryRecPtr := by
    rw [holder, lastRecpoint_append hr, h.remembered i r hr]
  refine ⟨(rearmed_raise_iff h.rearmed i).mpr hlast, h.since, fun j r' hr' => ?_⟩
  have hsame : ((s.raise i).art.laborer j).queryRecPtr = (s.art.laborer j).queryRecPtr := by
    by_cases hj : j = i
    · subst j
      simp [Rearm.raise, ArtServicer.raise]
    · simp [Rearm.raise, ArtServicer.raise, hj]
  rw [hsame]
  exact h.remembered j r' hr'

theorem RearmInv.run (h : RearmInv s) {i : ι} {found : Bool}
    (harmed : (s.art.laborer i).pc = .raising → ∃ q ∈ s.since i, q.type = .recpointCom)
    (hstep : s.run p0 i found = some s') : RearmInv s' := by
  by_cases hrun : (s.art.laborer i).pc = .runReal
  · rw [Rearm.run, hrun] at hstep
    cases hqueue : (s.art.laborer i).mQuery with
    | nil =>
      rw [hqueue] at hstep
      cases hstep
    | cons q rest =>
      rw [hqueue] at hstep
      cases hstep
      exact h.take hqueue
  by_cases hraise : (s.art.laborer i).pc = .raising
  · rw [Rearm.run, hraise] at hstep
    cases hstep
    exact h.raise (harmed hraise)
  have hother : s.run p0 i found =
      (s.art.run .full p0 i found).map fun art => { s with art := art } := by
    unfold Rearm.run
    split <;> simp_all
  rw [hother] at hstep
  obtain ⟨art, hart, rfl⟩ := Option.map_eq_some_iff.mp hstep
  exact h.keep fun j => ArtServicer.run_keeps hrun hraise hart j

theorem RearmInv.push (h : RearmInv s) (i : ι) (q : QueryData) :
    RearmInv { s with
      art := s.art.set i { s.art.laborer i with mQuery := (s.art.laborer i).mQuery ++ [q] }
      due := Function.update s.due i (s.due i ++ [q]) } := by
  refine ⟨fun j => ?_, h.since, fun j r hr => ?_⟩
  · by_cases hj : j = i
    · subst j
      simp [h.rearmed i]
    · simpa [hj] using h.rearmed j
  · by_cases hj : j = i
    · subst j
      simpa using h.remembered i r hr
    · simpa [hj] using h.remembered j r hr

theorem RearmInv.leave (h : RearmInv s) (i : ι) (sQueryRecPtr : QueryData) :
    RearmInv (s.leave i sQueryRecPtr) := by
  refine ⟨fun j => ?_, fun j => ?_, fun j r hr => ?_⟩
  · by_cases hj : j = i
    · subst j
      simpa [Rearm.leave] using h.rearmed i
    · simpa [Rearm.leave, hj] using h.rearmed j
  · by_cases hj : j = i
    · subst j
      exact ⟨s.executed i, by simp [Rearm.leave]⟩
    · simpa [Rearm.leave, hj] using h.since j
  · by_cases hj : j = i
    · subst j
      simp [Rearm.leave, lastRecpoint] at hr
    · have hlast : lastRecpoint (s.since j) = some r := by simpa [Rearm.leave, hj] using hr
      simpa [Rearm.leave, hj] using h.remembered j r hlast

theorem RearmInv.step (h : RearmInv s) {l : RearmStep ι} (hok : Armed s l)
    (hstep : s.step p0 l = some s') : RearmInv s' := by
  cases l with
  | leave i sQueryRecPtr =>
    obtain ⟨_, hstep⟩ := Option.ite_none_right_eq_some.mp hstep
    cases hstep
    exact h.leave i sQueryRecPtr
  | art l =>
    cases l with
    | run i found => exact h.run hok hstep
    | push i q =>
      cases hstep
      exact h.push i q
    | die kill =>
      obtain ⟨art, hart, rfl⟩ := Option.map_eq_some_iff.mp hstep
      obtain ⟨_, hart⟩ := Option.ite_none_right_eq_some.mp hart
      cases hart
      exact h.keep fun j => ⟨rfl, rfl⟩
    | restart =>
      obtain ⟨art, hart, rfl⟩ := Option.map_eq_some_iff.mp hstep
      obtain ⟨_, hart⟩ := Option.ite_none_left_eq_some.mp hart
      cases hart
      exact h.keep fun j => ⟨rfl, rfl⟩

end Runs

section Examples

instance (s : Rearm Unit) (l : RearmStep Unit) : Decidable (Armed s l) :=
  match l with
  | .art (.run _ _) => inferInstanceAs (Decidable (_ → _))
  | .art (.push _ _) | .art (.die _) | .art .restart | .leave _ _ => inferInstanceAs (Decidable True)

/-- The command that the service thread puts in front of a full test. -/
def enableAll : QueryData :=
  { QueryData.fresh with
    type := .recpointCom
    query := "execute enableall_recptrs()".toList
    table := "enableall_recptrs".toList
    realQuery := "--+TEST_RECPTR ENABLEALL;\n".toList }

private def steps (n : Nat) : List (RearmStep Unit) := List.replicate n (.art (.run () false))

private def selectCommand : QueryData := { QueryData.fresh with type := .selectCom }

/-- The server is killed while a SELECT is executed. -/
private def killed : List (RearmStep Unit) :=
  steps 2 ++ [.art (.die true), .art (.run () true)] ++ steps 5

end Examples

end Natc.Ats
