import Mathlib.Logic.Function.Basic
import Natc.Lib.Lines
import Natc.Lib.Machine

/-!
# The log of shell commands

`Laborer::runSystem2` has the command write its output to a log, reads the log and deletes it. The
log has the same name for all laborers of a result directory.
-/

namespace Natc.Ats

open Lib

/-- `fgets` with `sLine[BUFFER_SIZE]` reads one byte less. -/
def shellRoom : Nat := 65535

/-- `strncmp( sLine, "$$EOF$$", 7 ) == 0`. -/
def endMarked (sLine : Text) : Bool := "$$EOF$$".toList.isPrefixOf sLine

/-- What the read loop appends to `mResult`. -/
def readLog (log : Text) : Text :=
  ((pieces shellRoom log).filter fun sLine => !endMarked sLine).flatMap
    (·.takeWhile (· ≠ '\x00'))

/-- The output of a command without the lines that begin with the mark. -/
def ownOutput (output : Text) : Text :=
  ((wholeLines output).filter fun line => !endMarked line).flatten

/-- Where a laborer stands in `runSystem2`; `before` is `mResult` at its beginning. -/
inductive ShellPc where
  | idle
  | reading (output before : Text)
  | deleting (mSbegin : Bool) (output before : Text)
  /-- The log was not there. -/
  | failed
  deriving DecidableEq

/-- The call has run its command and is not through. -/
def ShellPc.isOpen : ShellPc → Bool
  | .reading _ _ | .deleting _ _ _ => true
  | .idle | .failed => false

/-- The laborers and the log `__$.log`. -/
structure ShellLog (ι : Type*) where
  pc : ι → ShellPc
  mResult : ι → Text
  log : Option Text

/-- The steps of the calls, and what a laborer appends between them. -/
inductive ShellStep (ι : Type*)
  /-- The request is answered when the command has ended. -/
  | start (i : ι) (mSbegin : Bool) (output : Text)
  /-- The request is refused, and leaves some log. -/
  | refused (i : ι) (log : Option Text)
  | read (i : ι)
  | delete (i : ι)
  | append (i : ι) (text : Text)

namespace ShellLog

variable {ι : Type*} [DecidableEq ι]

def go (s : ShellLog ι) (i : ι) (pc : ShellPc) : ShellLog ι :=
  { s with pc := Function.update s.pc i pc }

def append (s : ShellLog ι) (i : ι) (text : Text) : ShellLog ι :=
  { s with mResult := Function.update s.mResult i (s.mResult i ++ text) }

/-- `start shell command … STDOUT`: the log is written anew. -/
def start (s : ShellLog ι) (i : ι) (mSbegin : Bool) (output : Text) : ShellLog ι :=
  { s with log := some output }.go i
    (if mSbegin then .deleting true output (s.mResult i) else .reading output (s.mResult i))

/-- `fopen` and the read loop. -/
def read (s : ShellLog ι) (i : ι) (output before : Text) : ShellLog ι :=
  match s.log with
  | none => s.go i .failed
  | some log => (s.append i (readLog log)).go i (.deleting false output before)

/-- `delete entry`. -/
def delete (s : ShellLog ι) (i : ι) : ShellLog ι :=
  match s.log with
  | none => s.go i .failed
  | some _ => { s with log := none }.go i .idle

def step (s : ShellLog ι) : ShellStep ι → Option (ShellLog ι)
  | .start i mSbegin output => if (s.pc i).isOpen then none else some (s.start i mSbegin output)
  | .refused i log => if (s.pc i).isOpen then none else some ({ s with log := log }.go i .idle)
  | .append i text => if (s.pc i).isOpen then none else some (s.append i text)
  | .read i =>
      match s.pc i with
      | .reading output before => some (s.read i output before)
      | _ => none
  | .delete i =>
      match s.pc i with
      | .deleting _ _ _ => some (s.delete i)
      | _ => none

/-- No laborer has called `runSystem2` yet. -/
def machine (ι : Type*) [DecidableEq ι] : Machine (ShellLog ι) (ShellStep ι) where
  start := ⟨fun _ => .idle, fun _ => [], none⟩
  step := step

end ShellLog

/-- What is promised of the calls: behind the read a laborer has what its own command has written,
which within `SKIP BEGIN` is not wanted, and no log is missing. -/
structure ShellIsolated {ι : Type*} (s : ShellLog ι) : Prop where
  own : ∀ i mSbegin output before, s.pc i = .deleting mSbegin output before →
    s.mResult i = before ++ if mSbegin then [] else ownOutput output
  found : ∀ i, s.pc i ≠ .failed

/-- The pieces of a line are taken or left out together, and taken as they are. -/
def ReadableLine (line : Text) : Prop :=
  (∀ sLine ∈ pieces shellRoom line, endMarked sLine = endMarked line) ∧
    (endMarked line = false → '\x00' ∉ line)

instance (line : Text) : Decidable (ReadableLine line) :=
  inferInstanceAs (Decidable (_ ∧ _))

/-- A command is run only while no other call is open, and its output has readable lines. -/
def Alone {ι : Type*} (s : ShellLog ι) : ShellStep ι → Prop
  | .start _ mSbegin output =>
      (∀ j, (s.pc j).isOpen = false) ∧ (mSbegin ∨ ∀ line ∈ wholeLines output, ReadableLine line)
  | .refused _ log => (∀ j, (s.pc j).isOpen = false) ∨ log = s.log
  | .read _ | .delete _ | .append _ _ => True

section Lines

private theorem takeWhile_of_notMem {sLine : Text} (h : '\x00' ∉ sLine) :
    sLine.takeWhile (· ≠ '\x00') = sLine := by
  apply List.takeWhile_eq_self_iff.mpr
  intro c hc
  exact decide_eq_true fun heq => h (heq ▸ hc)

private theorem readLine {line : Text} (h : ReadableLine line) :
    ((pieces shellRoom line).filter fun sLine => !endMarked sLine).flatMap
      (·.takeWhile (· ≠ '\x00')) = if endMarked line then [] else line := by
  obtain ⟨hmark, hnul⟩ := h
  cases hline : endMarked line with
  | true =>
    have hnone : (pieces shellRoom line).filter (fun sLine => !endMarked sLine) = [] := by
      rw [List.filter_eq_nil_iff]
      intro sLine hs
      simp [hmark sLine hs, hline]
    rw [hnone]
    rfl
  | false =>
    have hall : (pieces shellRoom line).filter (fun sLine => !endMarked sLine) =
        pieces shellRoom line := by
      rw [List.filter_eq_self]
      intro sLine hs
      simp [hmark sLine hs, hline]
    have hflat := flatten_pieces shellRoom line
    have hplain : ∀ sLine ∈ pieces shellRoom line, sLine.takeWhile (· ≠ '\x00') = sLine := by
      intro sLine hs
      apply takeWhile_of_notMem
      intro hmem
      exact hnul hline (hflat ▸ List.mem_flatten.mpr ⟨sLine, hs, hmem⟩)
    rw [hall, List.flatMap_congr hplain, List.flatMap_id', hflat]
    rfl

/-- Readable lines are read as they are. -/
theorem readLog_of_readable {output : Text} (h : ∀ line ∈ wholeLines output, ReadableLine line) :
    readLog output = ownOutput output := by
  rw [readLog, ownOutput, pieces_lines]
  generalize wholeLines output = lines at h
  induction lines with
  | nil => rfl
  | cons line lines ih =>
    obtain ⟨hline, hlines⟩ := List.forall_mem_cons.mp h
    rw [List.flatMap_cons, List.filter_append, List.flatMap_append, readLine hline, ih hlines]
    cases hmark : endMarked line <;> simp [hmark]

end Lines

section Runs

variable {ι : Type*}

/-- The log of the only open call is its own. -/
structure ShellInv (s : ShellLog ι) : Prop where
  alone : ∀ i j, (s.pc i).isOpen → (s.pc j).isOpen → i = j
  reading : ∀ i output before, s.pc i = .reading output before →
    s.log = some output ∧ s.mResult i = before ∧ ∀ line ∈ wholeLines output, ReadableLine line
  deleting : ∀ i mSbegin output before, s.pc i = .deleting mSbegin output before →
    s.log.isSome ∧ s.mResult i = before ++ if mSbegin then [] else ownOutput output
  found : ∀ i, s.pc i ≠ .failed

theorem ShellInv.isolated {s : ShellLog ι} (h : ShellInv s) : ShellIsolated s where
  own i mSbegin output before hpc := (h.deleting i mSbegin output before hpc).2
  found := h.found

/-- What happens between the calls of a laborer leaves the open calls as they are. -/
private theorem ShellInv.between {s s' : ShellLog ι} (h : ShellInv s)
    (hpc : ∀ j, (s'.pc j).isOpen → s'.pc j = s.pc j ∧ s'.log = s.log ∧ s'.mResult j = s.mResult j)
    (hfound : ∀ j, s'.pc j ≠ .failed) : ShellInv s' where
  alone i j hi hj := h.alone i j ((hpc i hi).1 ▸ hi) ((hpc j hj).1 ▸ hj)
  reading i output before hi := by
    obtain ⟨hsame, hlog, hresult⟩ := hpc i (by rw [hi]; rfl)
    rw [hlog, hresult]
    exact h.reading i output before (hsame ▸ hi)
  deleting i mSbegin output before hi := by
    obtain ⟨hsame, hlog, hresult⟩ := hpc i (by rw [hi]; rfl)
    rw [hlog, hresult]
    exact h.deleting i mSbegin output before (hsame ▸ hi)
  found := hfound

variable [DecidableEq ι] {s : ShellLog ι}

theorem shellInv_start : ShellInv (ShellLog.machine ι).start where
  alone i j hi := by cases hi
  reading i output before hpc := by cases hpc
  deleting i mSbegin output before hpc := by cases hpc
  found i hpc := by cases hpc

/-- A state in which no call but that of `i` is open. -/
private theorem shellInv_of_only {s : ShellLog ι} (i : ι)
    (hclosed : ∀ j, j ≠ i → (s.pc j).isOpen = false) (hfound : ∀ j, s.pc j ≠ .failed)
    (hreading : ∀ output before, s.pc i = .reading output before →
      s.log = some output ∧ s.mResult i = before ∧ ∀ line ∈ wholeLines output, ReadableLine line)
    (hdeleting : ∀ mSbegin output before, s.pc i = .deleting mSbegin output before →
      s.log.isSome ∧ s.mResult i = before ++ if mSbegin then [] else ownOutput output) :
    ShellInv s := by
  have honly : ∀ j, (s.pc j).isOpen → j = i := by
    intro j hj
    by_contra hne
    rw [hclosed j hne] at hj
    cases hj
  refine ⟨fun j k hj hk => (honly j hj).trans (honly k hk).symm, fun j output before hpc => ?_,
    fun j mSbegin output before hpc => ?_, hfound⟩
  · obtain rfl := honly j (by rw [hpc]; rfl)
    exact hreading output before hpc
  · obtain rfl := honly j (by rw [hpc]; rfl)
    exact hdeleting mSbegin output before hpc

theorem ShellInv.start (h : ShellInv s) {i : ι} {mSbegin : Bool} {output : Text}
    (hclosed : ∀ j, (s.pc j).isOpen = false)
    (hlines : mSbegin ∨ ∀ line ∈ wholeLines output, ReadableLine line) :
    ShellInv (s.start i mSbegin output) := by
  have hother : ∀ j, j ≠ i → (s.start i mSbegin output).pc j = s.pc j :=
    fun j hj => Function.update_of_ne hj ..
  have hself : (s.start i mSbegin output).pc i = _ := Function.update_self ..
  refine shellInv_of_only i (fun j hj => hother j hj ▸ hclosed j) (fun j => ?_) ?_ ?_
  · by_cases hj : j = i
    · subst j
      rw [hself]
      cases mSbegin <;> simp
    · rw [hother j hj]
      exact h.found j
  · intro output' before hpc
    rw [hself] at hpc
    cases mSbegin with
    | true => cases hpc
    | false =>
      cases hpc
      exact ⟨rfl, rfl, hlines.resolve_left (by decide)⟩
  · intro b output' before hpc
    rw [hself] at hpc
    cases mSbegin with
    | true =>
      cases hpc
      exact ⟨rfl, (List.append_nil _).symm⟩
    | false => cases hpc

theorem ShellInv.read (h : ShellInv s) {i : ι} {output before : Text}
    (hpc : s.pc i = .reading output before) : ShellInv (s.read i output before) := by
  obtain ⟨hlog, hresult, hlines⟩ := h.reading i output before hpc
  have hread : s.read i output before =
      (s.append i (readLog output)).go i (.deleting false output before) := by
    rw [ShellLog.read, hlog]
  have hother : ∀ j, j ≠ i → (s.read i output before).pc j = s.pc j := by
    intro j hj
    rw [hread]
    exact Function.update_of_ne hj ..
  have hself : (s.read i output before).pc i = .deleting false output before := by
    rw [hread]
    exact Function.update_self ..
  refine shellInv_of_only i (fun j hj => ?_) (fun j => ?_) ?_ ?_
  · rw [hother j hj]
    by_contra hopen
    exact hj (h.alone j i (by simpa using hopen) (by rw [hpc]; rfl))
  · by_cases hj : j = i
    · subst j
      simp [hself]
    · rw [hother j hj]
      exact h.found j
  · intro output' before' hpc'
    rw [hself] at hpc'
    cases hpc'
  · intro b output' before' hpc'
    rw [hself] at hpc'
    cases hpc'
    refine ⟨by simp [hread, ShellLog.go, ShellLog.append, hlog], ?_⟩
    rw [hread, ← readLog_of_readable hlines]
    show Function.update s.mResult i _ i = _
    rw [Function.update_self, hresult]
    rfl

theorem ShellInv.delete (h : ShellInv s) {i : ι} {mSbegin : Bool} {output before : Text}
    (hpc : s.pc i = .deleting mSbegin output before) : ShellInv (s.delete i) := by
  obtain ⟨log, hlog⟩ := Option.isSome_iff_exists.mp (h.deleting i mSbegin output before hpc).1
  have hdelete : s.delete i = { s with log := none }.go i .idle := by rw [ShellLog.delete, hlog]
  have hother : ∀ j, j ≠ i → (s.delete i).pc j = s.pc j := by
    intro j hj
    rw [hdelete]
    exact Function.update_of_ne hj ..
  have hself : (s.delete i).pc i = .idle := by
    rw [hdelete]
    exact Function.update_self ..
  refine shellInv_of_only i (fun j hj => ?_) (fun j => ?_) (fun output' before' hpc' => ?_)
    fun b output' before' hpc' => ?_
  · rw [hother j hj]
    by_contra hopen
    exact hj (h.alone j i (by simpa using hopen) (by rw [hpc]; rfl))
  · by_cases hj : j = i
    · subst j
      simp [hself]
    · rw [hother j hj]
      exact h.found j
  · rw [hself] at hpc'
    cases hpc'
  · rw [hself] at hpc'
    cases hpc'

theorem ShellInv.step (h : ShellInv s) {s' : ShellLog ι} {l : ShellStep ι} (hok : Alone s l)
    (hstep : s.step l = some s') : ShellInv s' := by
  cases l with
  | start i mSbegin output =>
    obtain ⟨_, hstep⟩ := Option.ite_none_left_eq_some.mp hstep
    cases hstep
    exact h.start hok.1 hok.2
  | refused i log =>
    obtain ⟨_, hstep⟩ := Option.ite_none_left_eq_some.mp hstep
    cases hstep
    have hother : ∀ j, j ≠ i → (({ s with log := log }.go i .idle).pc j) = s.pc j :=
      fun j hj => Function.update_of_ne hj ..
    have hself : (({ s with log := log }.go i .idle).pc i) = .idle := Function.update_self ..
    refine h.between (fun j hj => ?_) fun j => ?_
    · have hne : j ≠ i := by
        rintro rfl
        rw [hself] at hj
        cases hj
      rw [hother j hne] at hj ⊢
      rcases hok with hclosed | hlog
      · rw [hclosed j] at hj
        cases hj
      · exact ⟨rfl, hlog, rfl⟩
    · by_cases hj : j = i
      · subst j
        simp [hself]
      · rw [hother j hj]
        exact h.found j
  | read i =>
    rw [ShellLog.step] at hstep
    cases hpc : s.pc i with
    | reading output before =>
      rw [hpc] at hstep
      cases hstep
      exact h.read hpc
    | idle | deleting _ _ _ | failed =>
      rw [hpc] at hstep
      cases hstep
  | delete i =>
    rw [ShellLog.step] at hstep
    cases hpc : s.pc i with
    | deleting mSbegin output before =>
      rw [hpc] at hstep
      cases hstep
      exact h.delete hpc
    | idle | reading _ _ | failed =>
      rw [hpc] at hstep
      cases hstep
  | append i text =>
    obtain ⟨hclosed, hstep⟩ := Option.ite_none_left_eq_some.mp hstep
    cases hstep
    refine h.between (fun j hj => ⟨rfl, rfl, Function.update_of_ne ?_ ..⟩) h.found
    rintro rfl
    exact hclosed hj

/-- In every run in which a command is only run while no other call is open, each call appends its
own output and finds its log. -/
theorem shell_isolated (h : (ShellLog.machine ι).Reach Alone s) : ShellIsolated s := by
  have hinv : ShellInv s := h.invariant shellInv_start fun _ _ _ hinv hok hstep =>
    hinv.step hok hstep
  exact hinv.isolated

end Runs

section Overlap

variable {ι : Type*} [DecidableEq ι] {s s' : ShellLog ι}

/-- More calls are open than there are logs. -/
def Overlapped (s : ShellLog ι) : Prop :=
  (∃ i j, i ≠ j ∧ (s.pc i).isOpen ∧ (s.pc j).isOpen) ∨ ∃ i, (s.pc i).isOpen ∧ s.log = none

private theorem isOpen_start (i : ι) (mSbegin : Bool) (output : Text) :
    ((s.start i mSbegin output).pc i).isOpen := by
  have hself : (s.start i mSbegin output).pc i = _ := Function.update_self ..
  rw [hself]
  cases mSbegin <;> rfl

/-- A command that is run while another call is open. -/
theorem overlapped_of_start {i j : ι} {mSbegin : Bool} {output : Text} (hne : j ≠ i)
    (hj : (s.pc j).isOpen) : Overlapped (s.start i mSbegin output) := by
  have hother : (s.start i mSbegin output).pc j = s.pc j := Function.update_of_ne hne ..
  exact .inl ⟨j, i, hne, hother ▸ hj, isOpen_start i mSbegin output⟩

/-- From then on some call is open until a call fails. -/
theorem overlapped_step (h : Overlapped s) {l : ShellStep ι} (hl : ∀ i log, l ≠ .refused i log)
    (hstep : s.step l = some s') : Overlapped s' ∨ ∃ i, s'.pc i = .failed := by
  cases l with
  | start k mSbegin output =>
    obtain ⟨hclosed, hstep⟩ := Option.ite_none_left_eq_some.mp hstep
    cases hstep
    left
    rcases h with ⟨i, j, hij, hi, _⟩ | ⟨i, hi, _⟩ <;>
      exact overlapped_of_start (fun heq => hclosed (heq ▸ hi)) hi
  | refused k log => exact absurd rfl (hl k log)
  | append k text =>
    obtain ⟨_, hstep⟩ := Option.ite_none_left_eq_some.mp hstep
    cases hstep
    exact .inl h
  | read k =>
    rw [ShellLog.step] at hstep
    cases hpc : s.pc k with
    | reading output before =>
      rw [hpc] at hstep
      cases hstep
      cases hlog : s.log with
      | none =>
        right
        exact ⟨k, by rw [ShellLog.read, hlog]; exact Function.update_self ..⟩
      | some log =>
        -- the call stays open and the log as it is
        have hopen : ∀ i, (s.pc i).isOpen → ((s.read k output before).pc i).isOpen := by
          intro i hi
          rw [ShellLog.read, hlog]
          by_cases hik : i = k
          · subst i
            show ((Function.update s.pc k _) k).isOpen
            rw [Function.update_self]
            rfl
          · show ((Function.update s.pc k _) i).isOpen
            rwa [Function.update_of_ne hik]
        rcases h with ⟨i, j, hij, hi, hj⟩ | ⟨i, _, hnone⟩
        · exact .inl (.inl ⟨i, j, hij, hopen i hi, hopen j hj⟩)
        · rw [hlog] at hnone
          cases hnone
    | idle | deleting _ _ _ | failed =>
      rw [hpc] at hstep
      cases hstep
  | delete k =>
    rw [ShellLog.step] at hstep
    cases hpc : s.pc k with
    | deleting mSbegin output before =>
      rw [hpc] at hstep
      cases hstep
      cases hlog : s.log with
      | none =>
        right
        exact ⟨k, by rw [ShellLog.delete, hlog]; exact Function.update_self ..⟩
      | some log =>
        -- one of the two calls is left without a log
        have hopen : ∀ i, i ≠ k → (s.pc i).isOpen → Overlapped (s.delete k) := by
          intro i hik hi
          right
          rw [ShellLog.delete, hlog]
          refine ⟨i, ?_, rfl⟩
          show ((Function.update s.pc k _) i).isOpen
          rwa [Function.update_of_ne hik]
        rcases h with ⟨i, j, hij, hi, hj⟩ | ⟨i, _, hnone⟩
        · by_cases hik : i = k
          · exact .inl (hopen j (fun hjk => hij (hik.trans hjk.symm)) hj)
          · exact .inl (hopen i hik hi)
        · rw [hlog] at hnone
          cases hnone
    | idle | reading _ _ | failed =>
      rw [hpc] at hstep
      cases hstep

end Overlap

section Examples

instance (s : ShellLog Bool) (l : ShellStep Bool) : Decidable (Alone s l) :=
  match l with
  | .start _ _ _ => inferInstanceAs (Decidable (_ ∧ (_ ∨ _)))
  | .refused _ _ => inferInstanceAs (Decidable (_ ∨ _))
  | .read _ | .delete _ | .append _ _ => inferInstanceAs (Decidable True)

/-- One call behind the other; the output of the second one has a line with the mark. -/
private def separate : List (ShellStep Bool) :=
  [.append false "$P0> !ls;\n".toList, .start false false "1\n".toList, .read false, .delete false,
    .start true false "2\n$$EOF$$\n".toList, .read true]

theorem shell_isolated_separate :
    ∃ s : ShellLog Bool, s.mResult false = "$P0> !ls;\n1\n".toList ∧
      s.mResult true = "2\n".toList ∧ ShellIsolated s := by
  obtain ⟨s, hreach, hresult⟩ := (ShellLog.machine Bool).exists_reach_of_exec
    (fun s l => decide (Alone s l))
    (fun s => decide (s.mResult false = "$P0> !ls;\n1\n".toList ∧ s.mResult true = "2\n".toList))
    separate (by decide)
  have hresult := of_decide_eq_true hresult
  exact ⟨s, hresult.1, hresult.2, shell_isolated (hreach.mono fun _ _ h => of_decide_eq_true h)⟩

/-- Two laborers whose calls overlap. -/
private def overlapping : List (ShellStep Bool) :=
  [.start false false "1\n".toList, .start true false "2\n".toList, .read false]

/-- The first laborer gets the output of the second one. -/
theorem shell_overlap_mixes :
    ¬ ∀ s : ShellLog Bool, (ShellLog.machine Bool).Reachable s → ShellIsolated s := by
  intro h
  obtain ⟨s, hreach, hbad⟩ := (ShellLog.machine Bool).exists_reach_of_exec (fun _ _ => true)
    (fun s => decide (s.pc false = .deleting false "1\n".toList [] ∧
      s.mResult false = "2\n".toList)) overlapping (by decide)
  have hbad : s.pc false = .deleting false "1\n".toList [] ∧ s.mResult false = "2\n".toList := by
    simpa using hbad
  have hown := (h s (hreach.mono fun _ _ _ => trivial)).own false _ _ _ hbad.1
  rw [hbad.2] at hown
  revert hown
  decide

end Examples

end Natc.Ats
