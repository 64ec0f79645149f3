import Natc.Ats.Phase

/-!
# Commands on their way to a laborer

The sections of the service thread issue the commands of a process one by one. At any time they
are spread over the staging list, the queue, the running command and the appended results; this
module shows that every step of either thread keeps them together and in order.
-/

namespace Natc.Ats

open Lib

/-- The command a section issues for a process; the section's number becomes the command's. -/
def Section.issue (p : Process) (seq : Nat) : Section → Option Issued
  | .give q d | .stage q d => if q = p then some ⟨seq, d, false⟩ else none
  | _ => none

/-- The commands a list of sections issues for a process. -/
def issued (p : Process) (secs : List Section) : List Issued :=
  secs.zipIdx.filterMap fun sec => sec.1.issue p sec.2

section Issued

variable {p : Process} {secs : List Section} {c : Issued}

@[simp] theorem issued_nil (p : Process) : issued p [] = [] := rfl

theorem issued_concat (p : Process) (secs : List Section) (sec : Section) :
    issued p (secs ++ [sec]) = issued p secs ++ (sec.issue p secs.length).toList := by
  unfold issued
  rw [List.zipIdx_append, List.filterMap_append]
  cases h : sec.issue p secs.length <;> simp [h]

/-- Sections of other processes issue nothing. -/
theorem issue_of_off {sec : Section} (h : sec.on ≠ some p) (n : Nat) : sec.issue p n = none := by
  cases sec <;> simp_all [Section.on, Section.issue]

theorem issue_eq {sec : Section} {n : Nat} (h : sec.issue p n = some c) :
    c.seq = n ∧ c.rearmed = false := by
  cases sec <;> simp only [Section.issue, reduceCtorEq] at h <;> split at h <;> cases h <;> simp

theorem mem_issued (h : c ∈ issued p secs) : c.seq < secs.length ∧ c.rearmed = false := by
  obtain ⟨⟨sec, n⟩, hm, hc⟩ := List.mem_filterMap.mp h
  obtain ⟨hseq, hre⟩ := issue_eq hc
  have hn := (List.mem_zipIdx hm).2.1
  exact ⟨by omega, hre⟩

/-- The commands of a process are numbered in the order in which they are issued. -/
theorem pairwise_issued (p : Process) (secs : List Section) :
    (issued p secs).Pairwise fun c c' => c.seq < c'.seq := by
  induction secs using List.reverseRecOn with
  | nil => exact .nil
  | append_singleton secs sec ih =>
    rw [issued_concat]
    refine List.pairwise_append.mpr ⟨ih, ?_, ?_⟩
    · cases sec.issue p secs.length <;> simp
    · intro c hc c' hc'
      have hseq := (issue_eq (Option.mem_toList.mp hc')).1
      exact hseq ▸ (mem_issued hc).1

end Issued

/-- Everything a laborer has in hand: the commands with a result, the running one, the queue. -/
def Laborer.received (l : Laborer) : List Issued :=
  l.results ++ l.pc.command.toList ++ l.mQuery

/-- What holds of a laborer at any time. Unless it failed, the commands handed to it are the ones
it has in hand, apart from the recovery commands it put back itself; once it has ended, its queue
is empty. -/
structure Laborer.Sound (l : Laborer) : Prop where
  conserved : l.pc ≠ .failed → l.handed = l.received.filter fun c => !c.rearmed
  drained : l.pc = .ended → l.mEnd ∧ l.mQuery = []
  closed : l.pc = .failed → l.mEnd

/-- The moves of a laborer thread, one constructor for each way through its loops. -/
inductive Laborer.Moves (kind : ATSTestKind) (l : Laborer) : Outcome → Laborer → Prop
  | idle {o} (hpc : l.pc = .run) : Moves kind l o l
  | enter {o} (hpc : l.pc = .run) : Moves kind l o l.enterRunReal
  | stop {o} (hpc : l.pc = .run) (hend : l.mEnd) (hq : l.mQuery = []) :
      Moves kind l o { l with pc := .ended }
  | leave {o} (hpc : l.pc = .runReal) : Moves kind l o { l with pc := .run }
  | take {o} (c : Issued) (rest : List Issued) (hpc : l.pc = .runReal)
      (hq : l.mQuery = c :: rest) : Moves kind l o { l with mQuery := rest, pc := .executing c }
  | finish (c : Issued) (hpc : l.pc = .executing c) : Moves kind l .ok (l.complete c)
  | rearm (c : Issued) (hpc : l.pc = .executing c) (hkind : kind = .full) :
      Moves kind l .rearm { l.complete c with
        mQuery := ⟨0, (l.complete c).recPtr, true⟩ :: (l.complete c).mQuery }
  | fail (c : Issued) (hpc : l.pc = .executing c) :
      Moves kind l .failed { l with mEnd := true, pc := .failed }

/-- Every step of a laborer is one of its moves. -/
theorem Laborer.moves_of_step {kind : ATSTestKind} {l l' : Laborer} {o : Outcome}
    (h : l.step kind o = some l') : l.Moves kind o l' := by
  unfold Laborer.step at h
  cases hpc : l.pc with
  | run =>
    simp only [hpc, Option.some.injEq] at h
    subst h
    unfold Laborer.runSection
    split
    · exact .idle hpc
    · exact .enter hpc
    · exact .enter hpc
    · rename_i hend hq
      exact .stop hpc hend hq
  | runReal =>
    simp only [hpc, Option.some.injEq] at h
    subst h
    unfold Laborer.runRealSection
    split
    · exact .leave hpc
    · rename_i c rest hq
      exact .take c rest hpc hq
  | executing c =>
    simp only [hpc] at h
    unfold Laborer.execute at h
    split at h
    · cases h
      exact .finish c hpc
    · split at h
      · rename_i hkind
        cases h
        exact .rearm c hpc hkind
      · cases h
    · cases h
      exact .fail c hpc
  | ended => simp [hpc] at h
  | failed => simp [hpc] at h

namespace Laborer

variable {kind : ATSTestKind} {l l' : Laborer} {o : Outcome}

theorem Moves.handed_eq (h : l.Moves kind o l') : l'.handed = l.handed := by
  cases h <;> rfl

/-- Results are only appended. -/
theorem Moves.results_prefix (h : l.Moves kind o l') : l.results <+: l'.results := by
  cases h <;> simp [enterRunReal, complete]

theorem Moves.mEnd_eq (h : l.Moves kind o l') : l'.mEnd = l.mEnd ∨ l'.pc = .failed := by
  cases h <;> simp [enterRunReal, complete]

theorem Moves.mEnd_mono (h : l.Moves kind o l') (hend : l.mEnd) : l'.mEnd := by
  cases h <;> simp_all [enterRunReal, complete]

/-- A thread that has returned takes no more steps. -/
theorem Moves.running (h : l.Moves kind o l') : l.pc.returned = false := by
  cases h <;> simp_all [LaborerPc.returned]

theorem Sound.initialized : Laborer.initialized.Sound where
  conserved _ := rfl
  drained h := by simp [Laborer.initialized] at h
  closed h := by simp [Laborer.initialized] at h

theorem Sound.moves (hs : l.Sound) (h : l.Moves kind o l') : l'.Sound := by
  have hnot : l.pc ≠ .failed := by
    intro hpc
    have hrun := h.running
    simp [hpc, LaborerPc.returned] at hrun
  have hc := hs.conserved hnot
  unfold received at hc
  cases h with
  | idle hpc => exact hs
  | enter hpc =>
    refine ⟨fun _ => ?_, by simp [enterRunReal], by simp [enterRunReal]⟩
    simpa [enterRunReal, received, hpc, LaborerPc.command] using hc
  | stop hpc hend hq =>
    refine ⟨fun _ => ?_, fun _ => ⟨hend, hq⟩, by simp⟩
    simpa [received, hpc, LaborerPc.command] using hc
  | leave hpc =>
    refine ⟨fun _ => ?_, by simp, by simp⟩
    simpa [received, hpc, LaborerPc.command] using hc
  | take c rest hpc hq =>
    refine ⟨fun _ => ?_, by simp, by simp⟩
    simpa [received, hpc, hq, LaborerPc.command] using hc
  | finish c hpc =>
    refine ⟨fun _ => ?_, by simp [complete], by simp [complete]⟩
    simpa [complete, received, hpc, LaborerPc.command] using hc
  | rearm c hpc hkind =>
    refine ⟨fun _ => ?_, by simp [complete], by simp [complete]⟩
    simpa [complete, received, hpc, LaborerPc.command, List.filter_cons] using hc
  | fail c hpc => exact ⟨by simp, by simp, fun _ => rfl⟩

/-- A laborer that was not told to end has not ended. -/
theorem Sound.not_ended (hs : l.Sound) (hend : l.mEnd → l.pc = .failed) : l.pc ≠ .ended := by
  intro hpc
  have hf := hend (hs.drained hpc).1
  rw [hpc] at hf
  cases hf

/-- Commands are handed over at the end of the queue of a laborer that has not ended. -/
theorem Sound.pushBack (hs : l.Sound) (hpc : l.pc ≠ .ended) (cs : List Issued)
    (hcs : ∀ c ∈ cs, c.rearmed = false) : (l.pushBack cs).Sound where
  conserved hf := by
    have hc := hs.conserved hf
    have hkeep : cs.filter (fun c => !c.rearmed) = cs :=
      List.filter_eq_self.mpr fun c hm => by simp [hcs c hm]
    simp only [Laborer.pushBack, received, List.filter_append, hkeep] at hc ⊢
    rw [hc, List.append_assoc]
  drained h := absurd h hpc
  closed h := hs.closed h

theorem Sound.close (hs : l.Sound) (hpc : l.pc ≠ .ended) : Laborer.Sound { l with mEnd := true } where
  conserved hf := hs.conserved hf
  drained h := absurd h hpc
  closed _ := rfl

end Laborer

/-- How a laborer and its staging list look in a phase of the service thread. -/
inductive Agrees : Phase → Option Laborer → List Issued → Prop
  | absent : Agrees .absent none []
  | active {staged : Bool} {l : Laborer} {cs : List Issued} (hcs : staged = false → cs = [])
      (hend : l.mEnd → l.pc = .failed) : Agrees (.active staged) (some l) cs
  | closing {l : Laborer} (hend : l.mEnd) : Agrees .closing (some l) []
  | joined {l : Laborer} (hend : l.mEnd) (hpc : l.pc.returned) : Agrees .joined (some l) []

/-- The commands handed to a laborer, none when there is no laborer. -/
def handedOf : Option Laborer → List Issued
  | some l => l.handed
  | none => []

/-- The invariant of one process behind the sections `done`. -/
structure Local (p : Process) (done : List Section) (l : Option Laborer) (cs : List Issued) :
    Prop where
  agrees : ∀ ph, Phase.absent.through p done = some ph → Agrees ph l cs
  issued_eq : handedOf l ++ cs = issued p done
  sound : ∀ l' ∈ l, l'.Sound

/-- What a section does to the laborer and the staging list of its process. -/
inductive Acts (n : Nat) : Section → Option Laborer → List Issued → Option Laborer →
    List Issued → Prop
  | runLaborer (p l cs) : Acts n (.runLaborer p) l cs (some .initialized) []
  | give (p q l cs) : Acts n (.give p q) (some l) cs (some (l.pushBack [⟨n, q, false⟩])) cs
  | stage (p q l cs) : Acts n (.stage p q) l cs l (cs ++ [⟨n, q, false⟩])
  | flush (p l cs) : Acts n (.flush p) (some l) cs (some (l.pushBack cs)) []
  | sync (p l cs) (h : l.mEnd ∨ l.mQuery = []) : Acts n (.sync p) (some l) cs (some l) cs
  | endLaborer (p l cs) :
      Acts n (.endLaborer p) (some l) cs (some { l with mEnd := true }) cs
  | join (p l cs) (h : l.pc.returned) : Acts n (.join p) (some l) cs (some l) cs

/-- Every section of the service thread either waits or moves on, acting on its own process
only. -/
theorem Sys.section_cases {s s' : Sys} {sec : Section} {rest : List Section}
    (h : s.section' rest sec = some s') :
    s' = s ∨ s'.todo = rest ∧ s'.taken = s.taken + 1 ∧ ∀ p,
      (sec.on = some p →
        Acts s.taken sec (s.laborer p) (s.staged p) (s'.laborer p) (s'.staged p)) ∧
      (sec.on ≠ some p → s'.laborer p = s.laborer p ∧ s'.staged p = s.staged p) := by
  cases sec with
  | runLaborer q =>
    cases h
    refine .inr ⟨rfl, rfl, fun p => ⟨?_, fun hp => ?_⟩⟩
    · rintro ⟨rfl⟩
      simpa [setLaborer, setStaged, advance] using Acts.runLaborer q _ _
    · have hq : p ≠ q := fun hpq => hp (hpq ▸ rfl)
      simp [setLaborer, setStaged, advance, hq]
  | give q d =>
    obtain ⟨l, hl, rfl⟩ := Option.map_eq_some_iff.mp h
    refine .inr ⟨rfl, rfl, fun p => ⟨?_, fun hp => ?_⟩⟩
    · rintro ⟨rfl⟩
      simpa [setLaborer, advance, hl] using Acts.give q d l _
    · have hq : p ≠ q := fun hpq => hp (hpq ▸ rfl)
      simp [setLaborer, advance, hq]
  | stage q d =>
    cases h
    refine .inr ⟨rfl, rfl, fun p => ⟨?_, fun hp => ?_⟩⟩
    · rintro ⟨rfl⟩
      simpa [setStaged, advance] using Acts.stage q d _ _
    · have hq : p ≠ q := fun hpq => hp (hpq ▸ rfl)
      simp [setStaged, advance, hq]
  | flush q =>
    obtain ⟨l, hl, rfl⟩ := Option.map_eq_some_iff.mp h
    refine .inr ⟨rfl, rfl, fun p => ⟨?_, fun hp => ?_⟩⟩
    · rintro ⟨rfl⟩
      simpa [setLaborer, setStaged, advance, hl] using Acts.flush q l _
    · have hq : p ≠ q := fun hpq => hp (hpq ▸ rfl)
      simp [setLaborer, setStaged, advance, hq]
  | sync q =>
    obtain ⟨l, hl, rfl⟩ := Option.map_eq_some_iff.mp h
    by_cases hgo : l.mEnd || l.mQuery.isEmpty
    · rw [if_pos hgo]
      refine .inr ⟨rfl, rfl, fun p => ⟨?_, fun _ => ⟨rfl, rfl⟩⟩⟩
      rintro ⟨rfl⟩
      simpa [advance, hl] using Acts.sync q l _ (by simpa using hgo)
    · exact .inl (if_neg hgo)
  | sleep n =>
    cases h
    exact .inr ⟨rfl, rfl, fun p => ⟨by simp [Section.on], fun _ => ⟨rfl, rfl⟩⟩⟩
  | endLaborer q =>
    obtain ⟨l, hl, rfl⟩ := Option.map_eq_some_iff.mp h
    refine .inr ⟨rfl, rfl, fun p => ⟨?_, fun hp => ?_⟩⟩
    · rintro ⟨rfl⟩
      simpa [setLaborer, advance, hl] using Acts.endLaborer q l _
    · have hq : p ≠ q := fun hpq => hp (hpq ▸ rfl)
      simp [setLaborer, advance, hq]
  | join q =>
    obtain ⟨l, hl, h⟩ := Option.bind_eq_some_iff.mp h
    split at h
    · rename_i hpc
      cases h
      refine .inr ⟨rfl, rfl, fun p => ⟨?_, fun _ => ⟨rfl, rfl⟩⟩⟩
      rintro ⟨rfl⟩
      simpa [advance, hl] using Acts.join q l _ hpc
    · cases h

/-- A step of the whole process is a section of the service thread or a move of one laborer. -/
theorem Sys.step_cases {kind : ATSTestKind} {s s' : Sys} {lab : Label}
    (h : Sys.step kind s lab = some s') :
    (∃ sec rest, lab = .servicer ∧ s.todo = sec :: rest ∧ s.section' rest sec = some s') ∨
      ∃ p o l l', lab = .laborer p o ∧ s.laborer p = some l ∧ l.Moves kind o l' ∧
        s' = s.setLaborer p l' := by
  cases lab with
  | servicer =>
    unfold Sys.step at h
    cases htodo : s.todo with
    | nil => simp [htodo] at h
    | cons sec rest => exact .inl ⟨sec, rest, rfl, rfl, by simpa [htodo] using h⟩
  | laborer p o =>
    obtain ⟨l, hl, h⟩ := Option.bind_eq_some_iff.mp h
    obtain ⟨l', hl', rfl⟩ := Option.map_eq_some_iff.mp h
    exact .inr ⟨p, o, l, l', rfl, hl, Laborer.moves_of_step hl', rfl⟩

namespace Local

variable {p : Process} {done : List Section} {l l' : Option Laborer} {cs cs' : List Issued}

theorem start (p : Process) : Local p [] none [] where
  agrees ph h := by
    cases h
    exact .absent
  issued_eq := rfl
  sound l' h := by cases h

/-- A section of another process. -/
theorem off (h : Local p done l cs) {sec : Section} (hon : sec.on ≠ some p) :
    Local p (done ++ [sec]) l cs where
  agrees ph hph := by
    rw [Phase.through_append] at hph
    obtain ⟨ph', h', hph⟩ := Option.bind_eq_some_iff.mp hph
    rw [Phase.through_of_off _ _ (by simpa using hon)] at hph
    cases hph
    exact h.agrees ph h'
  issued_eq := by
    rw [issued_concat, issue_of_off hon, h.issued_eq]
    simp
  sound := h.sound

/-- The protocol admits a section of the process itself in the phase reached. -/
theorem phase_act {sec : Section} (hon : sec.on = some p)
    (hph : (Phase.absent.through p (done ++ [sec])).isSome) :
    ∃ ph ph', Phase.absent.through p done = some ph ∧
      Phase.absent.through p (done ++ [sec]) = some ph' ∧ ph.act sec = some ph' := by
  obtain ⟨ph', hph⟩ := Option.isSome_iff_exists.mp hph
  have hstep := hph
  rw [Phase.through_append] at hstep
  obtain ⟨ph, hdone, hstep⟩ := Option.bind_eq_some_iff.mp hstep
  exact ⟨ph, ph', hdone, hph, by simpa [Phase.next, hon] using hstep⟩

/-- A section of the process itself, in step with the protocol. -/
theorem act (h : Local p done l cs) {sec : Section} (hon : sec.on = some p)
    (hph : (Phase.absent.through p (done ++ [sec])).isSome)
    (ha : Acts done.length sec l cs l' cs') : Local p (done ++ [sec]) l' cs' := by
  obtain ⟨ph, ph', hdone, hph, hact⟩ := phase_act hon hph
  suffices hnew : Agrees ph' l' cs' ∧
      handedOf l' ++ cs' = handedOf l ++ cs ++ (sec.issue p done.length).toList ∧
      ∀ a ∈ l', a.Sound by
    refine ⟨fun x hx => ?_, ?_, hnew.2.2⟩
    · rw [hph] at hx
      cases hx
      exact hnew.1
    · rw [issued_concat, ← h.issued_eq]
      exact hnew.2.1
  have hsound := h.sound
  have hag := h.agrees ph hdone
  cases ha with
  | runLaborer q =>
    cases hag <;> simp only [Phase.act, Option.some.injEq, reduceCtorEq] at hact
    subst hact
    refine ⟨.active (fun _ => rfl) (by simp [Laborer.initialized]), rfl, ?_⟩
    rintro a ⟨rfl⟩
    exact .initialized
  | give q d a =>
    cases hag with
    | @active staged _ _ hcs hend =>
      cases staged <;> simp only [Phase.act, Option.some.injEq, reduceCtorEq] at hact
      subst hact
      have hne := (hsound a rfl).not_ended hend
      refine ⟨.active hcs hend, ?_, ?_⟩
      · cases hon
        simp [handedOf, Laborer.pushBack, Section.issue, hcs rfl]
      · rintro b ⟨rfl⟩
        exact (hsound a rfl).pushBack hne _ (by simp)
    | _ => simp [Phase.act] at hact
  | stage q d =>
    cases hag with
    | @active staged a _ hcs hend =>
      simp only [Phase.act, Option.some.injEq] at hact
      subst hact
      cases hon
      exact ⟨.active (by simp) hend, by simp [Section.issue], hsound⟩
    | _ => simp [Phase.act] at hact
  | flush q a =>
    cases hag with
    | @active staged _ _ hcs hend =>
      simp only [Phase.act, Option.some.injEq] at hact
      subst hact
      have hne := (hsound a rfl).not_ended hend
      refine ⟨.active (fun _ => rfl) hend, by simp [handedOf, Laborer.pushBack, Section.issue], ?_⟩
      rintro b ⟨rfl⟩
      refine (hsound a rfl).pushBack hne _ fun c hc => ?_
      exact (mem_issued (h.issued_eq ▸ List.mem_append_right _ hc)).2
    | _ => simp [Phase.act] at hact
  | sync q a =>
    cases hag with
    | @active staged _ _ hcs hend =>
      cases staged <;> simp only [Phase.act, Option.some.injEq, reduceCtorEq] at hact
      subst hact
      exact ⟨.active hcs hend, by simp [Section.issue], hsound⟩
    | _ => simp [Phase.act] at hact
  | endLaborer q a =>
    cases hag with
    | @active staged _ _ hcs hend =>
      cases staged <;> simp only [Phase.act, Option.some.injEq, reduceCtorEq] at hact
      subst hact
      have hne := (hsound a rfl).not_ended hend
      rw [hcs rfl]
      refine ⟨.closing rfl, by simp [handedOf, Section.issue], ?_⟩
      rintro b ⟨rfl⟩
      exact (hsound a rfl).close hne
    | _ => simp [Phase.act] at hact
  | join q a _ hpc =>
    cases hag with
    | closing hend =>
      simp only [Phase.act, Option.some.injEq] at hact
      subst hact
      exact ⟨.joined hend hpc, by simp [Section.issue], hsound⟩
    | @active staged => cases staged <;> simp [Phase.act] at hact
    | joined => simp [Phase.act] at hact

/-- A move of the laborer. -/
theorem moves {kind : ATSTestKind} {o : Outcome} {a b : Laborer} (h : Local p done (some a) cs)
    (hm : a.Moves kind o b) : Local p done (some b) cs where
  agrees ph hph := by
    cases h.agrees ph hph with
    | active hcs hend => 
      refine .active hcs fun hb => ?_
      rcases hm.mEnd_eq with heq | hf
      · have hpc := hend (heq ▸ hb)
        have hrun := hm.running
        simp [hpc, LaborerPc.returned] at hrun
      · exact hf
    | closing hend => exact .closing (hm.mEnd_mono hend)
    | joined hend hpc =>
      have hrun := hm.running
      simp [hpc] at hrun
  issued_eq := by
    have heq := h.issued_eq
    simpa only [handedOf, hm.handed_eq] using heq
  sound l' hl' := by
    cases hl'
    exact (h.sound a rfl).moves hm

end Local

/-- The invariant of the whole process: the service thread has taken the sections `done` of its
program, and every process stands accordingly. -/
structure Flow (prog done : List Section) (s : Sys) : Prop where
  split : prog = done ++ s.todo
  taken : s.taken = done.length
  atProcess : ∀ p, Local p done (s.laborer p) (s.staged p)

namespace Flow

variable {prog done rest : List Section} {sec : Section} {s s' : Sys} {kind : ATSTestKind}

theorem start (prog : List Section) : Flow prog [] ⟨prog, 0, fun _ => none, fun _ => []⟩ where
  split := rfl
  taken := rfl
  atProcess p := .start p

/-- The next section is admitted for every process. -/
theorem admitted (h : Flow prog done s) (hprog : ∀ p, (Phase.absent.through p prog).isSome)
    (htodo : s.todo = sec :: rest) (p : Process) :
    (Phase.absent.through p (done ++ [sec])).isSome := by
  have hp := hprog p
  rw [h.split, htodo, List.append_cons, Phase.through_append] at hp
  exact Option.isSome_of_isSome_bind hp

theorem section_step (h : Flow prog done s) (hprog : ∀ p, (Phase.absent.through p prog).isSome)
    (htodo : s.todo = sec :: rest) (hs : s.section' rest sec = some s') :
    s' = s ∨ Flow prog (done ++ [sec]) s' := by
  rcases Sys.section_cases hs with rfl | ⟨hrest, htaken, hacts⟩
  · exact .inl rfl
  · refine .inr ⟨by simp [h.split, htodo, hrest], by simp [htaken, h.taken], fun p => ?_⟩
    by_cases hon : sec.on = some p
    · exact (h.atProcess p).act hon (h.admitted hprog htodo p) (h.taken ▸ (hacts p).1 hon)
    · obtain ⟨hl, hst⟩ := (hacts p).2 hon
      rw [hl, hst]
      exact (h.atProcess p).off hon

theorem laborer_step {p : Process} {o : Outcome} {l l' : Laborer} (h : Flow prog done s)
    (hl : s.laborer p = some l) (hm : l.Moves kind o l') : Flow prog done (s.setLaborer p l') := by
  refine ⟨h.split, h.taken, fun q => ?_⟩
  by_cases hq : q = p
  · subst q
    have hloc := h.atProcess p
    rw [hl] at hloc
    simpa [Sys.setLaborer] using hloc.moves hm
  · simpa [Sys.setLaborer, hq] using h.atProcess q

end Flow

/-- The programs of the service thread keep the protocol of every process. -/
theorem isSome_runParseTable (ctx : Context) (table : PsTable) (p : Process) :
    (Phase.absent.through p (runParseTable ctx table)).isSome := by
  obtain ⟨ph, hph, _⟩ := through_runParseTable p ctx table
  exact hph ▸ rfl

end Natc.Ats
