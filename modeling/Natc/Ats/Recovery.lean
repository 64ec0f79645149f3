import Natc.Ats.ArtTest
import Mathlib.Data.Fintype.Basic

/-!
# Deaths of the server in the recovery tests

The laborers of a recovery test find out together why the server died. When two of them see the
same death, the assertion of `executeArtTest` can fail and the server can be started twice; this
module shows that nothing of the kind happens as long as one connection error is handled before
the next one is seen.
-/

namespace Natc.Ats

open Lib

namespace ArtServicer

variable {ι : Type*}

/-- The last death of the server has not been classified. -/
def Fresh (s : ArtServicer ι) : Prop :=
  ∀ v ∈ s.verdicts, v.death ≠ s.deaths.length

/-- No laborer has started the server since its last death. -/
def Unstarted (s : ArtServicer ι) : Prop :=
  s.deaths.length ∉ s.starts

/-- What is asked of the laborers: the assertion holds, every death is classified and answered by a
start at most once, the classification is the one of the boot log at the death, and no death that a
laborer noticed is left unclassified. -/
structure Lawful (s : ArtServicer ι) : Prop where
  asserted : ∀ i, (s.laborer i).pc ≠ .aborted
  once : (s.verdicts.map (·.death)).Nodup
  right : ∀ v ∈ s.verdicts, 0 < v.death ∧ s.deaths[v.death - 1]? = some v.hit
  hit : s.mIsHit = s.verdicts.any (·.hit)
  classified : ∀ n ∈ s.noticed, (∀ i, (s.laborer i).pc ≠ .checking) → ∃ v ∈ s.verdicts, v.death = n
  started : s.starts.Nodup

/-- A laborer sees a connection error only when no restart is pending, no other laborer handles
one, and the death was not found to be a bug already; and nobody else starts the server just
before its boot log is read. -/
def Orderly (s : ArtServicer ι) : ArtStep ι → Prop
  | .run i found => (s.laborer i).pc = .executing → found = true →
      s.mIsArtRestart = false ∧ (∀ j, (s.laborer j).pc.handling = false) ∧
        (s.up = true ∨ s.bootLog = true ∨ s.Fresh)
  | .restart => ∀ j, (s.laborer j).pc ≠ .checking
  | _ => True

section Sound

variable {kind : ATSTestKind} {p0 : ι} {s s' : ArtServicer ι}

/-- What a laborer may rely on at the places where something hangs on it. -/
def At (p0 : ι) (s : ArtServicer ι) (i : ι) : ArtPc → Prop
  | .restarted => i = p0 → s.mIsArtRestart = true
  | .unclean => i = p0 ∧ s.mIsArtRestart = true ∧ s.Unstarted
  | .release => i = p0
  | .lost => s.mIsArtRestart = false ∧ (s.up = true ∨ s.Fresh)
  | .retrying => s.mIsArtRestart = false ∧ (s.up = true ∨ s.Fresh)
  | .checking => s.mIsArtRestart = false ∧ s.up = false ∧ s.Fresh
  | .starting => s.mIsArtRestart = false ∧ s.Unstarted
  | .raising => s.mIsArtRestart = false
  | .aborted => False
  | _ => True

structure Sound (p0 : ι) (s : ArtServicer ι) : Prop where
  place : ∀ i, At p0 s i (s.laborer i).pc
  one : ∀ i j, (s.laborer i).pc.handling = true → (s.laborer j).pc.handling = true → i = j
  down : s.up = false → s.Unstarted ∧ s.deaths.getLast? = some s.bootLog
  killed : s.up = false → s.bootLog = true → s.Fresh ∨ ∃ i, (s.laborer i).pc = .starting
  once : (s.verdicts.map (·.death)).Nodup
  right : ∀ v ∈ s.verdicts, 0 < v.death ∧ s.deaths[v.death - 1]? = some v.hit
  hit : s.mIsHit = s.verdicts.any (·.hit)
  classified : ∀ n ∈ s.noticed, (∃ v ∈ s.verdicts, v.death = n) ∨
    n = s.deaths.length ∧ ∃ i, (s.laborer i).pc = .checking
  begun : ∀ n ∈ s.starts, n ≤ s.deaths.length
  started : s.starts.Nodup

theorem Sound.lawful (h : Sound p0 s) : s.Lawful where
  asserted := by
    intro i hi
    have := h.place i
    rw [hi] at this
    exact this
  once := h.once
  right := h.right
  hit := h.hit
  classified := by
    intro n hn hnone
    rcases h.classified n hn with hv | ⟨_, i, hi⟩
    · exact hv
    · exact absurd hi (hnone i)
  started := h.started

/-- While a restart is pending, no connection error is being handled. -/
theorem Sound.quiet (h : Sound p0 s) (hflag : s.mIsArtRestart = true) (i : ι) :
    (s.laborer i).pc.handling = false := by
  have hplace := h.place i
  cases hpc : (s.laborer i).pc <;> simp_all [At, ArtPc.handling]

variable [DecidableEq ι]

@[simp] theorem set_laborer (s : ArtServicer ι) (i j : ι) (l : ArtLaborer) :
    (s.set i l).laborer j = if j = i then l else s.laborer j :=
  Function.update_apply s.laborer i l j

@[simp] theorem set_mIsArtRestart (s : ArtServicer ι) (i : ι) (l : ArtLaborer) :
    (s.set i l).mIsArtRestart = s.mIsArtRestart := rfl

@[simp] theorem set_up (s : ArtServicer ι) (i : ι) (l : ArtLaborer) :
    (s.set i l).up = s.up := rfl

@[simp] theorem set_deaths (s : ArtServicer ι) (i : ι) (l : ArtLaborer) :
    (s.set i l).deaths = s.deaths := rfl

@[simp] theorem set_verdicts (s : ArtServicer ι) (i : ι) (l : ArtLaborer) :
    (s.set i l).verdicts = s.verdicts := rfl

@[simp] theorem set_starts (s : ArtServicer ι) (i : ι) (l : ArtLaborer) :
    (s.set i l).starts = s.starts := rfl

/-- A laborer moves on by itself. -/
theorem Sound.move (h : Sound p0 s) {i : ι} {l : ArtLaborer} (hat : At p0 s i l.pc)
    (hhand : l.pc.handling = true →
      (s.laborer i).pc.handling = true ∨ ∀ j, (s.laborer j).pc.handling = false)
    (hstart : (s.laborer i).pc = .starting → l.pc = .starting)
    (hcheck : (s.laborer i).pc = .checking → l.pc = .checking) : Sound p0 (s.set i l) where
  place := by
    intro j
    rw [set_laborer]
    split
    · rename_i hj
      exact hj ▸ hat
    · exact h.place j
  one := by
    intro j k
    have hjk := h.one j k
    have hik := h.one i k
    have hji := h.one j i
    simp only [set_laborer]
    grind
  down := h.down
  killed := by
    intro hup hlog
    rcases h.killed hup hlog with hf | ⟨j, hj⟩
    · exact .inl hf
    · refine .inr ⟨j, ?_⟩
      rw [set_laborer]
      split
      · rename_i hji
        exact hstart (hji ▸ hj)
      · exact hj
  once := h.once
  right := h.right
  hit := h.hit
  classified := by
    intro n hn
    rcases h.classified n hn with hv | ⟨hlast, j, hj⟩
    · exact .inl hv
    · refine .inr ⟨hlast, j, ?_⟩
      rw [set_laborer]
      split
      · rename_i hji
        exact hcheck (hji ▸ hj)
      · exact hj
  begun := h.begun
  started := h.started

omit [DecidableEq ι] in
theorem Sound.numbered (h : Sound p0 s) : ∀ v ∈ s.verdicts, v.death ≤ s.deaths.length := by
  intro v hv
  obtain ⟨hpos, hget⟩ := h.right v hv
  have := (List.getElem?_eq_some_iff.mp hget).1
  omega

omit [DecidableEq ι] in
/-- A new death has been neither classified nor answered yet. -/
theorem Sound.die (h : Sound p0 s) (hup : s.up = true) (kill : Bool) :
    Sound p0 { s with up := false, bootLog := kill, deaths := s.deaths ++ [kill] } := by
  have hnew : ∀ v ∈ s.verdicts, v.death ≠ (s.deaths ++ [kill]).length := by
    intro v hv
    have := h.numbered v hv
    simp only [List.length_append, List.length_singleton]
    omega
  have hunstarted : (s.deaths ++ [kill]).length ∉ s.starts := by
    intro hn
    have := h.begun _ hn
    simp only [List.length_append, List.length_singleton] at this
    omega
  refine ⟨?_, h.one, ?_, ?_, h.once, ?_, h.hit, ?_, ?_, h.started⟩
  · intro i
    have hplace := h.place i
    cases hpc : (s.laborer i).pc <;> simp_all [At, Fresh, Unstarted]
  · exact fun _ => ⟨hunstarted, by simp⟩
  · exact fun _ _ => .inl hnew
  · intro v hv
    obtain ⟨hpos, hget⟩ := h.right v hv
    exact ⟨hpos, by rw [List.getElem?_append_left (List.getElem?_eq_some_iff.mp hget).1, hget]⟩
  · intro n hn
    rcases h.classified n hn with hv | ⟨_, i, hi⟩
    · exact .inl hv
    · have hplace := h.place i
      rw [hi] at hplace
      simp [At, hup] at hplace
  · intro n hn
    have := h.begun n hn
    simp only [List.length_append, List.length_singleton]
    omega

omit [DecidableEq ι] in
theorem Sound.restart (h : Sound p0 s) (hnone : ∀ i, (s.laborer i).pc ≠ .checking) :
    Sound p0 { s with up := true, bootLog := false } := by
  refine ⟨?_, h.one, by simp, by simp, h.once, h.right, h.hit, h.classified, h.begun, h.started⟩
  intro i
  have hplace := h.place i
  have hi := hnone i
  cases hpc : (s.laborer i).pc <;> simp_all [At, Unstarted]

/-- Only one laborer is where it would start the server. -/
theorem Sound.startBy (h : Sound p0 s) {i : ι} {pc : ArtPc} (hnot : s.Unstarted)
    (hnone : ∀ j, j ≠ i → (s.laborer j).pc ≠ .unclean ∧ (s.laborer j).pc.handling = false)
    (hcheck : (s.laborer i).pc ≠ .checking)
    (hpc : pc = .cleaned ∨ pc = .raising ∧ s.mIsArtRestart = false) :
    Sound p0 (s.startBy i pc) where
  place := by
    intro j
    have hplace := h.place j
    have hj := hnone j
    by_cases hji : j = i
    · rcases hpc with rfl | ⟨rfl, hflag⟩ <;> simp_all [ArtServicer.startBy, At]
    · cases hpcj : (s.laborer j).pc <;>
        simp_all [ArtServicer.startBy, At, ArtPc.handling]
  one := by
    intro j k
    have hj := hnone j
    have hk := hnone k
    simp only [ArtServicer.startBy, set_laborer]
    grind
  down := by
    intro hup
    cases hup
  killed := by
    intro hup
    cases hup
  once := h.once
  right := h.right
  hit := h.hit
  classified := by
    intro n hn
    rcases h.classified n hn with hv | ⟨_, j, hj⟩
    · exact .inl hv
    · by_cases hji : j = i
      · exact absurd (hji ▸ hj) hcheck
      · have := (hnone j hji).2
        simp [hj, ArtPc.handling] at this
  begun := by
    intro n hn
    rcases List.mem_cons.mp hn with rfl | hn
    · exact le_refl _
    · exact h.begun n hn
  started := List.nodup_cons.mpr ⟨hnot, h.started⟩

/-- The boot log is read while the server is down and its death not classified. -/
theorem Sound.checkServer (h : Sound p0 s) {i : ι} (hi : (s.laborer i).pc = .checking) :
    Sound p0 (s.checkServer i) := by
  have hplace := h.place i
  rw [hi] at hplace
  obtain ⟨hflag, hdown, hfresh⟩ := hplace
  obtain ⟨hnot, hlast⟩ := h.down hdown
  have hother : ∀ j, j ≠ i → (s.laborer j).pc.handling = false := by
    intro j hj
    by_contra hhand
    exact hj (h.one j i (by simpa using hhand) (by simp [hi, ArtPc.handling]))
  constructor
  case place =>
    intro j
    have hplace := h.place j
    have hj := hother j
    by_cases hji : j = i
    · cases hlog : s.bootLog <;> simp_all [ArtServicer.checkServer, At, Unstarted]
    · cases hpc : (s.laborer j).pc <;>
        simp_all [ArtServicer.checkServer, At, ArtPc.handling, Unstarted]
  case one =>
    intro j k
    have hj := hother j
    have hk := hother k
    simp only [ArtServicer.checkServer, set_laborer]
    grind
  case down => exact fun _ => ⟨hnot, hlast⟩
  case killed =>
    intro _ hlog
    have hlog' : s.bootLog = true := hlog
    exact .inr ⟨i, by simp [ArtServicer.checkServer, hlog']⟩
  case once =>
    refine List.nodup_cons.mpr ⟨?_, h.once⟩
    intro hmem
    obtain ⟨v, hv, hdeath⟩ := List.mem_map.mp hmem
    exact hfresh v hv hdeath
  case right =>
    intro v hv
    rcases List.mem_cons.mp hv with rfl | hv
    · have hpos : 0 < s.deaths.length := by
        apply List.length_pos_iff.mpr
        rintro hnil
        simp [hnil] at hlast
      exact ⟨hpos, List.getLast?_eq_getElem?.symm.trans hlast⟩
    · exact h.right v hv
  case hit =>
    show (s.mIsHit || s.bootLog) = (_ :: s.verdicts).any _
    rw [List.any_cons, h.hit, Bool.or_comm]
  case classified =>
    intro n hn
    rcases h.classified n hn with ⟨v, hv, hdeath⟩ | ⟨hlast, _⟩
    · exact .inl ⟨v, List.mem_cons_of_mem _ hv, hdeath⟩
    · exact .inl ⟨_, List.mem_cons_self, hlast.symm⟩
  case begun => exact h.begun
  case started => exact h.started

/-- A failed logon leads to the boot log. -/
theorem Sound.notice (h : Sound p0 s) {i : ι} (hi : (s.laborer i).pc = .retrying)
    (hdown : s.up = false) :
    Sound p0 ({ s with noticed := s.deaths.length :: s.noticed }.set i
      { s.laborer i with pc := .checking }) := by
  have hplace := h.place i
  rw [hi] at hplace
  obtain ⟨hflag, hfresh⟩ := hplace
  have hat : At p0 s i .checking := ⟨hflag, hdown, hfresh.resolve_left (by simp [hdown])⟩
  have hmove := h.move (l := { s.laborer i with pc := .checking }) hat
    (fun _ => .inl (by simp [hi, ArtPc.handling])) (by simp [hi]) (by simp)
  refine ⟨hmove.place, hmove.one, hmove.down, hmove.killed, h.once, h.right, h.hit, ?_, h.begun,
    h.started⟩
  intro n hn
  rcases List.mem_cons.mp hn with rfl | hn
  · exact .inr ⟨rfl, i, by simp⟩
  · exact hmove.classified n hn

/-- Setting the flag at the end of the handling, and withdrawing it, by the one laborer that is
concerned with it. -/
theorem Sound.setArtRestart (h : Sound p0 s) {i : ι} {l : ArtLaborer} {flag : Bool}
    (hnone : ∀ j, j ≠ i → (flag = true → (s.laborer j).pc.handling = false) ∧
      (flag = false → (s.laborer j).pc ≠ .unclean ∧ ((s.laborer j).pc = .restarted → j ≠ p0)))
    (hpc : (s.laborer i).pc = .raising ∨ (s.laborer i).pc = .release)
    (hl : l.pc = .runReal ∨ l.pc = .executing) :
    Sound p0 ({ s with mIsArtRestart := flag }.set i l) := by
  have hat : At p0 s i l.pc := by
    rcases hl with hl | hl <;> simp [hl, At]
  have hmove : Sound p0 (s.set i l) := by
    apply h.move hat
    · rcases hl with hl | hl <;> simp [hl, ArtPc.handling]
    · rcases hpc with hpc | hpc <;> simp [hpc]
    · rcases hpc with hpc | hpc <;> simp [hpc]
  refine ⟨?_, hmove.one, hmove.down, hmove.killed, h.once, h.right, h.hit, hmove.classified,
    h.begun, h.started⟩
  intro j
  have hplace := h.place j
  have hj := hnone j
  by_cases hji : j = i
  · rcases hl with hl | hl <;> simp [hji, hl, At]
  · cases hpcj : (s.laborer j).pc <;> cases flag <;>
      simp_all [At, ArtPc.handling, Unstarted, Fresh]

omit [DecidableEq ι] in
/-- The laborer that handles an error is the only one, and no `cleanServer` is under way. -/
theorem Sound.alone (h : Sound p0 s) {i : ι} (hi : (s.laborer i).pc.handling = true) :
    s.mIsArtRestart = false ∧
      ∀ j, j ≠ i → (s.laborer j).pc ≠ .unclean ∧ (s.laborer j).pc.handling = false := by
  have hflag : s.mIsArtRestart = false := by
    by_contra hflag
    have := h.quiet (by simpa using hflag) i
    simp [hi] at this
  refine ⟨hflag, fun j hj => ⟨?_, ?_⟩⟩
  · intro hpc
    have hplace := h.place j
    rw [hpc] at hplace
    simp [At, hflag] at hplace
  · by_contra hhand
    exact hj (h.one j i (by simpa using hhand) hi)

/-- Each step of a laborer in an orderly run. -/
theorem Sound.run (h : Sound p0 s) {i : ι} {found : Bool} (hok : s.Orderly (.run i found))
    (hstep : s.run kind p0 i found = some s') : Sound p0 s' := by
  have hplace := h.place i
  rw [ArtServicer.run] at hstep
  cases hpc : (s.laborer i).pc with
  | runReal =>
    simp only [hpc] at hstep
    obtain ⟨q, _, rfl⟩ := Option.map_eq_some_iff.mp hstep
    cases hflag : s.mIsArtRestart <;>
      exact h.move (by simp [hflag, At]) (by simp [hflag, ArtPc.handling]) (by simp [hpc])
        (by simp [hpc])
  | restarted =>
    simp only [hpc, Option.some.injEq] at hstep
    subst hstep
    rw [hpc] at hplace
    apply h.move
    · by_cases hi : i = p0
      · cases hlog : s.logon i with
        | true => simp [hi, At]
        | false =>
          have hup : s.up = false := by simp_all [ArtServicer.logon]
          simpa [hi, hlog, At] using ⟨hplace hi, (h.down hup).1⟩
      · cases hlog : s.logon i <;> simp [hi, At]
    · by_cases hi : i = p0 <;> cases hlog : s.logon i <;> simp [hi, ArtPc.handling]
    · simp [hpc]
    · simp [hpc]
  | unclean =>
    simp only [hpc, Option.some.injEq] at hstep
    subst hstep
    rw [hpc] at hplace
    obtain ⟨hi, hflag, hnot⟩ := hplace
    apply h.startBy hnot
    · intro j hj
      refine ⟨?_, h.quiet hflag j⟩
      intro hpcj
      have hplace := h.place j
      rw [hpcj] at hplace
      exact hj (hplace.1.trans hi.symm)
    · simp [hpc]
    · exact .inl rfl
  | cleaned =>
    simp only [hpc, Option.some.injEq] at hstep
    subst hstep
    have hmove := h.move (i := i) (l := { s.laborer i with mLogon := false, pc := .relogon })
      (by simp [At]) (by simp [ArtPc.handling]) (by simp [hpc]) (by simp [hpc])
    exact ⟨hmove.place, hmove.one, hmove.down, hmove.killed, h.once, h.right, h.hit,
      hmove.classified, h.begun, h.started⟩
  | relogon =>
    simp only [hpc, Option.some.injEq] at hstep
    subst hstep
    apply h.move
    · by_cases hi : i = p0 <;> cases hlog : s.logon i <;> simp [hi, At]
    · by_cases hi : i = p0 <;> cases hlog : s.logon i <;> simp [hi, ArtPc.handling]
    · simp [hpc]
    · simp [hpc]
  | release =>
    simp only [hpc, Option.some.injEq] at hstep
    subst hstep
    rw [hpc] at hplace
    have hi : i = p0 := hplace
    apply h.setArtRestart
    · intro j hj
      refine ⟨by simp, fun _ => ⟨?_, fun _ hp => hj (hp.trans hi.symm)⟩⟩
      intro hpcj
      have hplace := h.place j
      rw [hpcj] at hplace
      exact hj (hplace.1.trans hi.symm)
    · exact .inr hpc
    · exact .inr rfl
  | plain =>
    simp only [hpc, Option.some.injEq] at hstep
    subst hstep
    apply h.move
    · dsimp only
      split <;> simp [At]
    · dsimp only
      split <;> simp [ArtPc.handling]
    · simp [hpc]
    · simp [hpc]
  | executing =>
    simp only [hpc, Option.some.injEq] at hstep
    subst hstep
    cases found with
    | false =>
      exact h.move (by simp [At]) (by simp [ArtPc.handling]) (by simp [hpc]) (by simp [hpc])
    | true =>
      obtain ⟨hflag, hnone, hdeath⟩ := hok hpc rfl
      have hfresh : s.up = true ∨ s.Fresh := by
        rcases hdeath with hup | hlog | hfresh
        · exact .inl hup
        · cases hup : s.up with
          | true => exact .inl rfl
          | false =>
            rcases h.killed hup hlog with hfresh | ⟨j, hj⟩
            · exact .inr hfresh
            · have := hnone j
              simp [hj, ArtPc.handling] at this
        · exact .inr hfresh
      exact h.move ⟨hflag, hfresh⟩ (fun _ => .inr hnone) (by simp [hpc]) (by simp [hpc])
  | lost =>
    simp only [hpc, Option.some.injEq] at hstep
    subst hstep
    rw [hpc] at hplace
    apply h.move
    · simpa [hplace.1, At] using hplace
    · exact fun _ => .inl (by simp [hpc, ArtPc.handling])
    · simp [hpc]
    · simp [hpc]
  | retrying =>
    simp only [hpc] at hstep
    split at hstep
    · cases hstep
      exact h.move (by simp [At]) (by simp [ArtPc.handling]) (by simp [hpc]) (by simp [hpc])
    · rename_i hup
      cases hstep
      exact h.notice hpc (by simpa using hup)
  | checking =>
    simp only [hpc, Option.some.injEq] at hstep
    exact hstep ▸ h.checkServer hpc
  | starting =>
    simp only [hpc, Option.some.injEq] at hstep
    subst hstep
    rw [hpc] at hplace
    apply h.startBy hplace.2
    · exact (h.alone (by simp [hpc, ArtPc.handling])).2
    · simp [hpc]
    · exact .inr ⟨rfl, hplace.1⟩
  | raising =>
    simp only [hpc, Option.some.injEq] at hstep
    subst hstep
    apply h.setArtRestart
    · intro j hj
      exact ⟨fun _ => ((h.alone (by simp [hpc, ArtPc.handling])).2 j hj).2, by simp⟩
    · exact .inl hpc
    · exact .inl rfl
  | bugKill =>
    simp only [hpc, Option.some.injEq] at hstep
    subst hstep
    apply h.move
    · dsimp only
      split <;> simp [At]
    · dsimp only
      split <;> simp [ArtPc.handling]
    · simp [hpc]
    · simp [hpc]
  | ended => simp [hpc] at hstep
  | aborted => simp [hpc] at hstep

theorem Sound.push (h : Sound p0 s) (i : ι) (q : QueryData) :
    Sound p0 (s.set i { s.laborer i with mQuery := (s.laborer i).mQuery ++ [q] }) := by
  apply h.move
  · exact h.place i
  · exact fun hhand => .inl hhand
  · exact id
  · exact id

theorem sound_of_reach (h : (machine kind p0).Reach Orderly s) : Sound p0 s := by
  apply h.invariant
  · constructor <;> simp [machine, idle, At, ArtPc.handling]
  · intro s c s' hs hok hstep
    simp only [machine, step] at hstep
    cases c with
    | die kill =>
      simp only at hstep
      split at hstep
      · rename_i hup
        cases hstep
        exact hs.die hup kill
      · cases hstep
    | restart =>
      simp only at hstep
      split at hstep
      · cases hstep
      · cases hstep
        exact hs.restart hok
    | push i q =>
      cases hstep
      exact hs.push i q
    | run i found => exact hs.run hok hstep

/-- In an orderly run the assertion never fails, and the laborers classify each death of the server
and start the server after it at most once. -/
theorem deaths_classified_once (kind : ATSTestKind) (p0 : ι) (s : ArtServicer ι)
    (h : (machine kind p0).Reach Orderly s) : s.Lawful :=
  (sound_of_reach h).lawful

end Sound

section Schedules

instance (s : ArtServicer ι) : Decidable s.Fresh :=
  inferInstanceAs (Decidable (∀ v ∈ s.verdicts, v.death ≠ s.deaths.length))

instance [Fintype ι] (s : ArtServicer ι) : (c : ArtStep ι) → Decidable (s.Orderly c)
  | .die _ => isTrue trivial
  | .push _ _ => isTrue trivial
  | .restart => inferInstanceAs (Decidable (∀ j, (s.laborer j).pc ≠ .checking))
  | .run i found => inferInstanceAs (Decidable ((s.laborer i).pc = .executing → found = true →
      s.mIsArtRestart = false ∧ (∀ j, (s.laborer j).pc.handling = false) ∧
        (s.up = true ∨ s.bootLog = true ∨ s.Fresh)))

/-- A query that is not a recovery-point command. -/
def select : QueryData := { QueryData.fresh with type := .selectCom }

/-- Laborer `i` is handed a query and takes it up to its execution. -/
def upToExecution (i : Bool) : List (ArtStep Bool) :=
  [.push i select, .run i false, .run i false]

/-- Both laborers lose their connection by the same recovery-point kill. The first one starts the
server again before the other one looks at the restart flag. -/
def togetherSchedule : List (ArtStep Bool) :=
  upToExecution true ++ upToExecution false ++
    [.die true, .run true true, .run false true] ++ List.replicate 5 (.run true false) ++
    [.run false false]

theorem assertion_fails_together : ¬∀ s : ArtServicer Bool,
    (machine ATSTestKind.full true).Reachable s → s.Lawful := by
  intro hall
  obtain ⟨s, hs, haborted⟩ := Machine.exists_reach_of_exec (machine ATSTestKind.full true)
    (fun _ _ => true) (fun s => (s.laborer false).pc == .aborted) togetherSchedule (by decide)
  exact (hall s (hs.mono fun _ _ _ => trivial)).asserted false (beq_iff_eq.mp haborted)

/-- The second laborer sees its connection error after `P0` took note of the restart. -/
def inTurnSchedule : List (ArtStep Bool) :=
  upToExecution true ++ upToExecution false ++
    [.die true, .run true true] ++ List.replicate 8 (.run true false) ++
    [.run false true, .run false false, .run false false]

theorem deaths_classified_once_in_turn : ∃ s : ArtServicer Bool,
    (s.verdicts = [⟨1, true⟩] ∧ s.starts = [1]) ∧ s.Lawful := by
  obtain ⟨s, hs, hseen⟩ := Machine.exists_reach_of_exec (machine ATSTestKind.full true)
    (fun s c => decide (s.Orderly c))
    (fun s => decide (s.verdicts = [⟨1, true⟩] ∧ s.starts = [1])) inTurnSchedule (by decide)
  exact ⟨s, of_decide_eq_true hseen,
    deaths_classified_once ATSTestKind.full true s (hs.mono fun _ _ => of_decide_eq_true)⟩

end Schedules

end ArtServicer

end Natc.Ats
