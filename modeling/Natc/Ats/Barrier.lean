import Natc.Ats.Flow

/-!
# The PWAIT barrier

`Laborer::sync` returns as soon as it finds the queue empty. The laborer takes a command out of
the queue before it executes it, so an empty queue does not mean that the last command is done.
In a run in which no `sync` returns at such a moment the barrier keeps its promise.
-/

namespace Natc.Ats

open Lib

/-- The step is not the return of a `sync` that finds the queue empty while the laborer is still
executing a command. -/
def quiet (s : Sys) : Label → Bool
  | .servicer =>
      match s.todo with
      | .sync p :: _ => (s.laborer p).all fun l => !l.mQuery.isEmpty || l.pc.command.isNone
      | _ => true
  | .laborer _ _ => true

/-- Behind a `sync` for a laborer that has not ended, every command the script issued to it
before has its result appended. -/
def Waited (prog : List Section) (s : Sys) : Prop :=
  ∀ p l j c, s.laborer p = some l → l.pc.returned = false → j < s.taken →
    prog[j]? = some (.sync p) → c ∈ issued p prog → c.seq < j → c ∈ l.results

/-- While a command placed before a `sync` for its laborer is still running, no command placed
behind that `sync` runs. -/
def Separated (prog : List Section) (s : Sys) : Prop :=
  ∀ p q l l' j c c', s.laborer p = some l → s.laborer q = some l' →
    prog[j]? = some (.sync p) → c ∈ issued p prog → c' ∈ issued q prog →
    l.pc.command = some c → c.seq < j → l'.pc.command = some c' → ¬ j < c'.seq

theorem mem_issued_of_lt {p : Process} {as bs : List Section} {c : Issued}
    (hc : c ∈ issued p (as ++ bs)) (hlt : c.seq < as.length) : c ∈ issued p as := by
  induction bs using List.reverseRecOn with
  | nil => simpa using hc
  | append_singleton bs sec ih =>
    rw [← List.append_assoc, issued_concat, List.mem_append] at hc
    rcases hc with hc | hc
    · exact ih hc
    · have hseq := (issue_eq (Option.mem_toList.mp hc)).1
      rw [hseq, List.length_append] at hlt
      omega

namespace Laborer.Sound

variable {l : Laborer} {c : Issued}

/-- A laborer at rest with an empty queue has executed everything it was handed. -/
theorem handed_of_rest (hs : l.Sound) (hpc : l.pc.returned = false) (hq : l.mQuery = [])
    (hrest : l.pc.command = none) (hc : c ∈ l.handed) : c ∈ l.results := by
  have hnot : l.pc ≠ .failed := by
    rintro hf
    simp [hf, LaborerPc.returned] at hpc
  rw [hs.conserved hnot, received, hq, hrest] at hc
  simpa using (List.mem_filter.mp hc).1

private theorem not_failed (hrun : l.pc.command = some c) : l.pc ≠ .failed := by
  rintro hf
  simp [hf, LaborerPc.command] at hrun

/-- The running command was handed over, unless the laborer put it back itself. -/
theorem handed_of_running (hs : l.Sound) (hrun : l.pc.command = some c)
    (hre : c.rearmed = false) : c ∈ l.handed := by
  rw [hs.conserved (not_failed hrun), received, hrun]
  simp [hre]

/-- The running command has no result yet. -/
theorem running_not_done (hs : l.Sound) (hn : l.handed.Nodup) (hrun : l.pc.command = some c)
    (hre : c.rearmed = false) : c ∉ l.results := by
  intro hc
  rw [hs.conserved (not_failed hrun), received, hrun] at hn
  simp only [List.filter_append, List.nodup_append, List.mem_append, List.mem_filter] at hn
  exact hn.1.2.2 c ⟨hc, by simp [hre]⟩ c (by simp [hre]) rfl

end Laborer.Sound

/-- Behind every `sync` for a process taken so far, the commands issued before are done, unless
its laborer has returned. -/
def Passed (p : Process) (done : List Section) (l : Option Laborer) : Prop :=
  ∀ j, done[j]? = some (.sync p) → ∃ a, l = some a ∧
    (a.pc.returned = false → ∀ c ∈ issued p done, c.seq < j → c ∈ a.results)

namespace Passed

variable {p : Process} {done : List Section} {sec : Section} {l l' : Option Laborer}
  {cs cs' : List Issued}

private theorem getElem_concat {j : Nat} (h : (done ++ [sec])[j]? = some (.sync p)) :
    (j < done.length ∧ done[j]? = some (.sync p)) ∨ j = done.length ∧ sec = .sync p := by
  rw [List.getElem?_append] at h
  split at h
  · rename_i hj
    exact .inl ⟨hj, h⟩
  · rw [List.getElem?_singleton] at h
    split at h
    · exact .inr ⟨by omega, Option.some.inj h⟩
    · cases h

/-- Commands issued by a new section do not matter to the barriers taken before. -/
private theorem old_command {j : Nat} (hj : j < done.length) {c : Issued}
    (hc : c ∈ issued p (done ++ [sec])) (hlt : c.seq < j) : c ∈ issued p done :=
  mem_issued_of_lt hc (by omega)

/-- A section of another process. -/
theorem off (h : Passed p done l) (hon : sec.on ≠ some p) : Passed p (done ++ [sec]) l := by
  intro j hj
  rcases getElem_concat hj with ⟨hlt, hj⟩ | ⟨rfl, rfl⟩
  · obtain ⟨a, ha, hdone⟩ := h j hj
    exact ⟨a, ha, fun hpc c hc hseq => hdone hpc c (old_command hlt hc hseq) hseq⟩
  · exact absurd rfl hon

/-- No section but the start touches where the laborer stands or its results. -/
private theorem acts_keep {n : Nat} {a : Laborer} (ha : Acts n sec (some a) cs l' cs')
    (hne : ∀ q, sec ≠ .runLaborer q) :
    ∃ b, l' = some b ∧ b.pc = a.pc ∧ b.results = a.results := by
  cases ha with
  | runLaborer q => exact absurd rfl (hne q)
  | give | stage | flush | sync | endLaborer | join => exact ⟨_, rfl, rfl, rfl⟩

/-- A laborer is started only once. -/
private theorem not_started {a : Laborer} (hloc : Local p done (some a) cs)
    (hon : sec.on = some p) (hph : (Phase.absent.through p (done ++ [sec])).isSome)
    (q : Process) : sec ≠ .runLaborer q := by
  rintro rfl
  obtain ⟨ph, ph', hdone, _, hact⟩ := Local.phase_act hon hph
  cases hloc.agrees ph hdone <;> simp [Phase.act] at hact

/-- A section of the process itself; a `sync` that returns on an empty queue finds the laborer at
rest. -/
theorem act (h : Passed p done l) (hloc : Local p done l cs) (hon : sec.on = some p)
    (hph : (Phase.absent.through p (done ++ [sec])).isSome)
    (hquiet : sec = .sync p → ∀ a, l = some a → a.mQuery = [] → a.pc.command = none)
    (ha : Acts done.length sec l cs l' cs') : Passed p (done ++ [sec]) l' := by
  intro j hj
  rcases getElem_concat hj with ⟨hlt, hj⟩ | ⟨rfl, rfl⟩
  · obtain ⟨a, rfl, hdone⟩ := h j hj
    obtain ⟨b, hb, hpc, hres⟩ := acts_keep ha (not_started hloc hon hph)
    refine ⟨b, hb, fun hrun c hc hseq => ?_⟩
    rw [hres]
    exact hdone (hpc ▸ hrun) c (old_command hlt hc hseq) hseq
  · obtain ⟨ph, ph', hdone, _, hact⟩ := Local.phase_act hon hph
    cases ha with
    | sync q a _ hgo =>
      refine ⟨a, rfl, fun hrun c hc _ => ?_⟩
      cases hloc.agrees ph hdone with
      | @active staged _ _ hcs hend =>
        cases staged with
        | true => simp [Phase.act] at hact
        | false =>
          have hq : a.mQuery = [] := by
            rcases hgo with hm | hq
            · rw [hend hm] at hrun
              cases hrun
            · exact hq
          have hhanded : c ∈ a.handed := by
            have heq := hloc.issued_eq
            rw [hcs rfl, List.append_nil] at heq
            rw [issued_concat, ← heq] at hc
            simpa [Section.issue, handedOf] using hc
          exact (hloc.sound a rfl).handed_of_rest hrun hq (hquiet rfl a rfl hq) hhanded
      | _ => simp [Phase.act] at hact

/-- A move of the laborer. -/
theorem moves {kind : ATSTestKind} {o : Outcome} {a b : Laborer} (h : Passed p done (some a))
    (hm : a.Moves kind o b) : Passed p done (some b) := by
  intro j hj
  obtain ⟨a', ha, hdone⟩ := h j hj
  cases ha
  exact ⟨b, rfl, fun _ c hc hseq => hm.results_prefix.subset (hdone hm.running c hc hseq)⟩

end Passed

/-- The invariant of the runs in which every `sync` returns quietly. -/
def Kept (prog : List Section) (s : Sys) : Prop :=
  ∃ done, Flow prog done s ∧ ∀ p, Passed p done (s.laborer p)

private theorem quiet_sync {s : Sys} {p : Process} {rest : List Section}
    (hquiet : quiet s .servicer) (htodo : s.todo = .sync p :: rest) {a : Laborer}
    (ha : s.laborer p = some a) (hq : a.mQuery = []) : a.pc.command = none := by
  simpa [quiet, htodo, ha, hq] using hquiet

theorem Kept.step {prog : List Section} {s s' : Sys} {kind : ATSTestKind} {lab : Label}
    (h : Kept prog s) (hprog : ∀ p, (Phase.absent.through p prog).isSome)
    (hquiet : quiet s lab) (hs : Sys.step kind s lab = some s') : Kept prog s' := by
  obtain ⟨done, hflow, hpassed⟩ := h
  rcases Sys.step_cases hs with ⟨sec, rest, rfl, htodo, hs⟩ | ⟨p, o, l, l', rfl, hl, hm, rfl⟩
  · have hflow' := hflow.section_step hprog htodo hs
    rcases Sys.section_cases hs with rfl | ⟨_, _, hacts⟩
    · exact ⟨done, hflow, hpassed⟩
    rcases hflow' with rfl | hflow'
    · exact ⟨done, hflow, hpassed⟩
    refine ⟨done ++ [sec], hflow', fun p => ?_⟩
    by_cases hon : sec.on = some p
    · refine (hpassed p).act (hflow.atProcess p) hon (hflow.admitted hprog htodo p) ?_
        (hflow.taken ▸ (hacts p).1 hon)
      rintro rfl a ha hq
      exact quiet_sync hquiet htodo ha hq
    · rw [((hacts p).2 hon).1]
      exact (hpassed p).off hon
  · refine ⟨done, hflow.laborer_step hl hm, fun q => ?_⟩
    by_cases hq : q = p
    · subst q
      have hp := hpassed p
      rw [hl] at hp
      simpa [Sys.setLaborer] using hp.moves hm
    · simpa [Sys.setLaborer, hq] using hpassed q

namespace Flow

variable {prog done : List Section} {s : Sys} {p : Process} {l : Laborer} {c : Issued}

theorem handed_prefix (h : Flow prog done s) (hl : s.laborer p = some l) :
    l.handed <+: issued p done := by
  have heq := (h.atProcess p).issued_eq
  rw [hl] at heq
  exact heq ▸ List.prefix_append _ _

theorem nodup_handed (h : Flow prog done s) (hl : s.laborer p = some l) : l.handed.Nodup :=
  (((pairwise_issued p done).imp fun hlt heq => absurd hlt (by simp [heq])).sublist
    (h.handed_prefix hl).sublist)

/-- A command that runs was issued before the section the service thread is at. -/
theorem running_taken (h : Flow prog done s) (hl : s.laborer p = some l)
    (hrun : l.pc.command = some c) (hc : c ∈ issued p prog) : c.seq < s.taken := by
  have hsound := (h.atProcess p).sound l hl
  have hhanded := hsound.handed_of_running hrun (mem_issued hc).2
  rw [h.taken]
  exact (mem_issued ((h.handed_prefix hl).subset hhanded)).1

end Flow

theorem Kept.waited {prog : List Section} {s : Sys} (h : Kept prog s) : Waited prog s := by
  intro p l j c hl hpc hj hsync hc hlt
  obtain ⟨done, hflow, hpassed⟩ := h
  rw [hflow.taken] at hj
  rw [hflow.split] at hsync hc
  rw [List.getElem?_append_left hj] at hsync
  obtain ⟨a, ha, hdone⟩ := hpassed p j hsync
  rw [hl] at ha
  cases ha
  exact hdone hpc c (mem_issued_of_lt hc (by omega)) hlt

/-- A running command has no result, so it was not placed before a barrier that has been passed;
and what runs at all was issued before the section the service thread is at. -/
theorem Kept.separated {prog : List Section} {s : Sys} (h : Kept prog s) : Separated prog s := by
  intro p q l l' j c c' hl hl' hsync hc hc' hrun hlt hrun' hbehind
  have hrunning : l.pc.returned = false := by
    cases hpc : l.pc <;> simp_all [LaborerPc.command, LaborerPc.returned]
  obtain ⟨done, hflow, _⟩ := id h
  have hj : j < s.taken := Nat.lt_trans hbehind (hflow.running_taken hl' hrun' hc')
  have hdone := h.waited p l j c hl hrunning hj hsync hc hlt
  have hsound := (hflow.atProcess p).sound l hl
  exact hsound.running_not_done (hflow.nodup_handed hl) hrun (mem_issued hc).2 hdone

/-- In every run in which no `sync` returns on an empty queue while the laborer still executes a
command, every barrier of the script keeps its promise. -/
theorem barrier_of_quiet (ctx : Context) (table : PsTable) (s : Sys)
    (h : (service ctx table).Reach (fun s lab => quiet s lab) s) :
    Waited (runParseTable ctx table) s ∧ Separated (runParseTable ctx table) s := by
  have hkept : Kept (runParseTable ctx table) s := by
    refine h.invariant ⟨[], .start _, fun p j hj => by simp at hj⟩ ?_
    intro s lab s' hk hq hs
    exact hk.step (isSome_runParseTable ctx table) hq hs
  exact ⟨hkept.waited, hkept.separated⟩

section Overtaken

/-- An INSERT of `P1`, then `PWAIT;`. -/
def insertThenPwait : PsTable where
  first := []
  later := [
    ⟨.normal, "P1".toList, [⟨.insert, fun key =>
      if key = "key1" then "INSERT INTO T1 VALUES( 1 )".toList else []⟩]⟩,
    ⟨.pwait, "all".toList, []⟩]

/-- A normal test without server aliases and recovery points. -/
def plainContext : Context := ⟨.ascii, .normal, id, fun _ => none, []⟩

/-- The INSERT was placed before the `sync` for `P1` in section 7 and is running without a result,
while `P0` executes the echo placed behind that `sync`. -/
def overtaken (s : Sys) : Bool :=
  match s.laborer "P1".toList, s.laborer p0 with
  | some l, some l' =>
      match l.pc.command, l'.pc.command with
      | some c, some c' =>
          !l.pc.returned ∧ c.seq < 7 ∧ 7 < c'.seq ∧ 7 < s.taken ∧ c ∉ l.results ∧
            c ∈ issued "P1".toList (runParseTable plainContext insertThenPwait) ∧
            c' ∈ issued p0 (runParseTable plainContext insertThenPwait)
      | _, _ => false
  | _, _ => false

/-- `P1` takes the INSERT out of its queue before the service thread looks at that queue. -/
def overtakingSchedule : List Label :=
  List.replicate 6 .servicer ++ List.replicate 2 (.laborer "P1".toList .ok) ++
    List.replicate 3 .servicer ++ List.replicate 2 (.laborer p0 .ok)

private theorem not_barrier_of_overtaken {s : Sys} (h : overtaken s) :
    ¬ Waited (runParseTable plainContext insertThenPwait) s ∧
      ¬ Separated (runParseTable plainContext insertThenPwait) s := by
  unfold overtaken at h
  split at h
  · rename_i l l' hl hl'
    split at h
    · rename_i c c' hc hc'
      simp only [Bool.decide_and, Bool.and_eq_true, decide_eq_true_eq, Bool.not_eq_true'] at h
      obtain ⟨hpc, hlt, hbehind, htaken, hnot, hi, hi'⟩ := h
      have hsync : (runParseTable plainContext insertThenPwait)[7]? =
          some (.sync "P1".toList) := by decide
      exact ⟨fun hw => hnot (hw _ l 7 c hl hpc htaken hsync hi hlt),
        fun hsep => hsep _ _ l l' 7 c c' hl hl' hsync hi hi' hc hlt hc' hbehind⟩
    · cases h
  · cases h

/-- A `sync` that returns while the last command is still running breaks both promises. -/
theorem barrier_overtaken :
    ∃ s, (service plainContext insertThenPwait).Reachable s ∧
      ¬ Waited (runParseTable plainContext insertThenPwait) s ∧
      ¬ Separated (runParseTable plainContext insertThenPwait) s := by
  obtain ⟨s, hs, hover⟩ := Machine.exists_reach_of_exec (service plainContext insertThenPwait)
    (fun _ _ => true) overtaken overtakingSchedule (by decide)
  exact ⟨s, hs.mono fun _ _ _ => trivial, not_barrier_of_overtaken hover⟩

/-- `P1` finishes the INSERT first. -/
def quietSchedule : List Label :=
  List.replicate 6 .servicer ++ List.replicate 3 (.laborer "P1".toList .ok) ++
    List.replicate 3 .servicer

/-- A quiet run through the same script keeps both promises behind the PWAIT. -/
theorem barrier_of_quiet_pwait :
    ∃ s, 7 < s.taken ∧ Waited (runParseTable plainContext insertThenPwait) s ∧
      Separated (runParseTable plainContext insertThenPwait) s := by
  obtain ⟨s, hs, htaken⟩ := Machine.exists_reach_of_exec (service plainContext insertThenPwait)
    quiet (fun s => 7 < s.taken) quietSchedule (by decide)
  exact ⟨s, by simpa using htaken, barrier_of_quiet plainContext insertThenPwait s hs⟩

end Overtaken

end Natc.Ats
