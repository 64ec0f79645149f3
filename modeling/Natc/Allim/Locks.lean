import Natc.Allim.Shared
import Natc.Lib.Machine
import Mathlib.Logic.Function.Basic

/-!
# The locks of the allim library

Every function gives its locks back on all its ways out but one: a seek in the log that fails
after `mLogLock` is taken leaves by the test that does not unlock. From then on `mLogLock` is held
by nobody, and whoever logs next waits for ever.
-/

namespace Natc.Allim.Shared

open Lib

/-- No lock is held. -/
def State.Free (s : State) : Prop := s.region.mLock = false ∧ s.region.mLogLock = false

/-- `mLogLock` is held. -/
def State.LogHeld (s : State) : Prop := s.region.mLogLock = true

/-- A program that logs under `mLogLock`, with its answers. -/
inductive Logged where
  | line (r : FileReplies)
  | callstack (r : FileReplies)

/-- The log is open behind `allimOpenLog`. -/
def FileReplies.opens (r : FileReplies) (sOpened : Bool) : Bool :=
  sOpened || (r.acpEnvGet = .success && r.acpFileOpen = .success)

/-- The seek does not fail, if it comes to one. -/
def Logged.Sought : Logged → Bool → Prop
  | .line r, sOpened =>
      r.acpSnprintf = .success → r.opens sOpened → r.acpFileSeek = .success
  | .callstack r, sOpened => r.opens sOpened → r.acpFileSeek = .success

/-- Whether the log is open afterwards. -/
def Logged.opened : Logged → Bool → Bool
  | .line r, sOpened => if r.acpSnprintf = .success then r.opens sOpened else sOpened
  | .callstack r, sOpened => r.opens sOpened

/-- No seek of the logging fails. -/
def AllSought : List Logged → Bool → Prop
  | [], _ => True
  | l :: ls, sOpened => l.Sought sOpened ∧ AllSought ls (l.opened sOpened)

def openedBy : List Logged → Bool → Bool
  | [], sOpened => sOpened
  | l :: ls, sOpened => openedBy ls (l.opened sOpened)

/-- What is logged when both flags are set. -/
def Region.when (m : Region) (flag : Region → Int) (ls : List Logged) : List Logged :=
  if m.mLog ≠ 0 ∧ flag m ≠ 0 then ls else []

/-- What `allimLogCallstack` logs. -/
def Region.stack (m : Region) (r : FileReplies) : List Logged :=
  if m.mLogStack ≠ 0 then [.callstack r] else []

/-- What a hit of the point logs: the hit, and when the point fires, the errno and the call
stack. -/
def Region.hitLogged (m : Region) (i : Fin maxThreads) (r : Replies) : List Logged :=
  m.when Region.mLogHit [.line (r.logs 1)] ++
    if m.point.mHitCounts i - 1 = 0 then
      m.when Region.mLogLimit
        (.line (r.logs 2) :: m.stack (r.logs 3))
    else []

/-- What a pass logs behind the scan of the slots. -/
def Region.scannedLogged (m : Region) (pf : Platform) (aFile aID : Text) (r : Replies) :
    Option (Fin maxThreads) → List Logged
  | none => []
  | some i => if m.point.compare pf.toAcp aFile aID = .counted then m.hitLogged i r else []

/-- What a pass logs. -/
def Region.passLogged (m : Region) (pf : Platform) (aFile aID : Text) (r : Replies) :
    List Logged :=
  m.when Region.mLogPass [.line (r.logs 0)] ++
    m.scannedLogged pf aFile aID r (m.point.scan r.acpThrGetSelfID)

/-- What new settings log. -/
def Region.settingsLogged (m : Region) (r : Replies) : List Logged :=
  if m.mLog ≠ 0 then (List.range 7).map fun k => .line (r.logs k) else []

/-- What a call logs with the point in its hands. -/
def Call.logged (pf : Platform) (r : Replies) (m : Region) : Call → List Logged
  | .logCallstack => m.stack (r.logs 0)
  | .logWrite aPoint => if aPoint then [.line (r.logs 0)] else []
  | .create _ | .enableLogging _ => [.line (r.logs 0)]
  | .pointSet .. | .pointClear => m.when Region.mLogSet [.line (r.logs 0)]
  | .pointPass aFile aID => m.passLogged pf aFile aID r
  | .setLogging .. => m.settingsLogged r
  | .setMemoryWaste _ | .setDiskWaste .. | .setDescWaste _ =>
      m.when Region.mLogReal [.line (r.logs 0)]
  | .memory =>
      if m.mDestMemory ≠ m.mMemory then m.when Region.mLogReal [.line (r.logs 0)] else []
  | .desc => if m.mDestDesc ≠ m.mDesc then m.when Region.mLogReal [.line (r.logs 0)] else []
  | _ => []

/-- The process has the chunks that `allimMemory` is to free, and `allimDesc` stays in its array of
sockets. -/
def Call.InRange (r : Replies) (s : State) : Call → Prop
  | .memory =>
      s.region.mDestMemory < s.region.mMemory → s.process.sChunk = 0 ∨
        s.region.mMemory - s.region.mDestMemory ≤ chunkSize * s.process.sChunk
  | .desc =>
      (s.region.mDesc < s.region.mDestDesc → 0 ≤ s.region.mDesc ∧
        (s.region.mDestDesc ≤ descMax ∨
          ∃ i, s.region.mDesc ≤ i ∧ i < descMax ∧ r.acpSockOpen i ≠ .success)) ∧
      (s.region.mDestDesc < s.region.mDesc → 0 ≤ s.region.mDestDesc ∧ s.region.mDesc ≤ descMax)
  | _ => True

/-- The shared memory is attached. -/
def Replies.Attaches (r : Replies) (p : Process) : Prop :=
  (p.gKey = 0 → r.shmLog.acpEnvGet = .success ∧ r.shmLog.acpFileOpen = .success ∧
    r.shmLog.acpFileRead = .success ∧ r.shmLog.acpCStrToInt32 = .success) ∧
  r.acpShmAttach = .success

/-- The call gets hold of the region. -/
def Call.Reaches (r : Replies) (p : Process) : Call → Prop
  | .logCallstack | .logWrite _ => True
  | .create _ => r.created.acpEnvGet = .success ∧ r.created.acpFileOpen = .success ∧
      r.acpShmCreate = .success ∧ r.acpShmAttach = .success
  | _ => r.Attaches p

/-- If the call gets to the region, no seek in the log fails under `mLogLock`, and the call keeps
to the memory it has. -/
def Call.Safe (pf : Platform) (r : Replies) (s : State) (c : Call) : Prop :=
  c.Reaches r s.process →
    AllSought (c.logged pf r s.region) s.process.sOpened ∧ c.InRange r s

/-- The call returns with no lock held. -/
def Call.Returns (pf : Platform) (r : Replies) (s : State) (c : Call) : Prop :=
  (c.run pf r s).Sat fun _ s' => s'.Free

theorem allSought_append (ls ls' : List Logged) (o : Bool) :
    AllSought (ls ++ ls') o ↔ AllSought ls o ∧ AllSought ls' (openedBy ls o) := by
  induction ls generalizing o with
  | nil => simp [AllSought, openedBy]
  | cons l ls ih => simp only [List.cons_append, AllSought, openedBy, ih, and_assoc]

theorem openedBy_append (ls ls' : List Logged) (o : Bool) :
    openedBy (ls ++ ls') o = openedBy ls' (openedBy ls o) := by
  induction ls generalizing o with
  | nil => rfl
  | cons l ls ih => exact ih (l.opened o)

/-- The state behind the logging. -/
def State.logged (s : State) (ls : List Logged) : State :=
  { s with process := { s.process with sOpened := openedBy ls s.process.sOpened } }

@[simp] theorem logged_region (s : State) (ls : List Logged) : (s.logged ls).region = s.region :=
  rfl

@[simp] theorem logged_sOpened (s : State) (ls : List Logged) :
    (s.logged ls).process.sOpened = openedBy ls s.process.sOpened := rfl

theorem logged_append (s : State) (ls ls' : List Logged) :
    (s.logged ls).logged ls' = s.logged (ls ++ ls') := by
  simp only [State.logged, openedBy_append]

@[simp] theorem logged_nil (s : State) : s.logged [] = s := rfl

section Open

variable (r : FileReplies) (s : State)

theorem allimOpenLog_opens (h : r.opens s.process.sOpened) :
    allimOpenLog r s =
      .returned .success { s with process := { s.process with sOpened := true } } := by
  obtain ⟨region, sOpened, gKey, sChunk⟩ := s
  cases sOpened with
  | true => rfl
  | false =>
    simp only [FileReplies.opens, Bool.false_or, Bool.and_eq_true, decide_eq_true_eq] at h
    simp [allimOpenLog, h.1, h.2]

theorem allimOpenLog_fails (h : ¬ r.opens s.process.sOpened) :
    ∃ rc, rc ≠ .success ∧ allimOpenLog r s = .returned rc s := by
  obtain ⟨region, sOpened, gKey, sChunk⟩ := s
  cases sOpened with
  | true => exact absurd rfl h
  | false =>
    simp only [FileReplies.opens, Bool.false_or, Bool.and_eq_true, decide_eq_true_eq,
      not_and_or] at h
    by_cases henv : r.acpEnvGet = .success
    · have hopen := h.resolve_left (not_not_intro henv)
      exact ⟨r.acpFileOpen, hopen, by simp [allimOpenLog, henv, hopen]⟩
    · exact ⟨r.acpEnvGet, henv, by simp [allimOpenLog, henv]⟩

end Open

/-- The two locked bodies between `allimOpenLog` and the end: `rc` is what the writing comes to. -/
def logBody (r : FileReplies) (rc : AcpRc) : LibProg AcpRc := do
  lockLog true
  let sRC ← allimOpenLog r
  if sRC ≠ .success then do
    unlockLog true
    pure sRC
  else if r.acpFileSeek ≠ .success then pure r.acpFileSeek
  else do
    unlockLog true
    pure rc

/-- The state with `mLogLock` taken. -/
def State.lockedLog (s : State) : State := { s with region := { s.region with mLogLock := true } }

theorem lockLog_bind {β : Type} {s : State} (hs : ¬ s.LogHeld) (k : Unit → LibProg β) :
    (lockLog true >>= k) s = k () s.lockedLog := by
  apply Prog.bind_returned
  simp only [State.LogHeld, Bool.not_eq_true] at hs
  simp [lockLog, State.lockedLog, hs]

theorem lockLog_blocks {β : Type} {s : State} (hs : s.LogHeld) (k : Unit → LibProg β) :
    (lockLog true >>= k) s = .blocked := by
  apply Prog.bind_blocked
  simp [lockLog, show s.region.mLogLock = true from hs]

/-- Taken and given back. -/
theorem unlockLog_lockedLog {s t : State} (hs : ¬ s.LogHeld) (ht : t.region = s.lockedLog.region) :
    unlockLog true t = .returned () { t with region := s.region } := by
  obtain ⟨m, p⟩ := t
  obtain rfl : m = s.lockedLog.region := ht
  have hlog : s.region.mLogLock = false := by simpa [State.LogHeld] using hs
  have hregion : { s.lockedLog.region with mLogLock := false } = s.region := by
    simp only [State.lockedLog, ← hlog]
  simp [unlockLog, hregion]

theorem logBody_releases (r : FileReplies) (rc : AcpRc) :
    Prog.Releases State.LogHeld (logBody r rc)
      (fun s => (Logged.callstack r).Sought s.process.sOpened)
      (fun s => s.logged [.callstack r]) where
  free s hs hc := by
    refine ⟨?_, hs⟩
    rw [logBody, lockLog_bind hs]
    by_cases hopen : r.opens s.process.sOpened
    · rw [Prog.bind_returned (allimOpenLog_opens r s.lockedLog hopen)]
      have hseek : r.acpFileSeek = .success := hc hopen
      have hlogged : s.logged [.callstack r] =
          { s with process := { s.process with sOpened := true } } := by
        simp [State.logged, openedBy, Logged.opened, hopen]
      rw [hlogged]
      refine ⟨rc, ?_⟩
      simp only [hseek, ne_eq, not_true_eq_false, if_false]
      exact Prog.bind_returned (unlockLog_lockedLog hs rfl)
    · obtain ⟨e, he, hfail⟩ := allimOpenLog_fails r s.lockedLog hopen
      rw [Prog.bind_returned hfail]
      have hlogged : s.logged [.callstack r] = s := by
        have hclosed : s.process.sOpened = false := by
          simp only [FileReplies.opens, Bool.or_eq_true, not_or, Bool.not_eq_true] at hopen
          exact hopen.1
        simp [State.logged, openedBy, Logged.opened, hopen, ← hclosed]
      rw [hlogged]
      refine ⟨e, ?_⟩
      rw [if_pos he]
      exact Prog.bind_returned (unlockLog_lockedLog hs rfl)
  lost s hs hc := by
    have hopen : r.opens s.process.sOpened ∧ r.acpFileSeek ≠ .success := by
      simpa [Logged.Sought] using hc
    rw [logBody, lockLog_bind hs,
      Prog.bind_returned (allimOpenLog_opens r s.lockedLog hopen.1)]
    simp only [ne_eq, not_true_eq_false, if_false, if_pos hopen.2]
    rfl
  stays s hs := by
    rw [logBody, lockLog_blocks hs]
    trivial

theorem allimLogWrite_eq (r : FileReplies) :
    allimLogWrite true r =
      if r.acpSnprintf ≠ .success then pure r.acpSnprintf else logBody r (r.acpFileWrite 0) := by
  unfold allimLogWrite logBody allimCloseLog
  by_cases hwrite : r.acpFileWrite 0 = .success
  · simp [hwrite]
    rfl
  · simp [hwrite]

theorem allimLogWrite_releases (r : FileReplies) :
    Prog.Releases State.LogHeld (allimLogWrite true r)
      (fun s => AllSought [.line r] s.process.sOpened) (fun s => s.logged [.line r]) := by
  rw [allimLogWrite_eq]
  refine (Prog.Releases.ite (fun _ => .pure _) fun _ => logBody_releases r _).congr ?_ ?_
  · intro s
    by_cases h : r.acpSnprintf = .success <;> simp [h, AllSought, Logged.Sought]
  · intro s _
    by_cases h : r.acpSnprintf = .success <;>
      simp [h, State.logged, openedBy, Logged.opened]

theorem allimLogCallstack_eq (pf : Platform) (r : FileReplies) :
    allimLogCallstack pf r = Prog.state >>= fun s =>
      if s.region.mLogStack ≠ 0 then
        logBody r (writeAll r (if pf.linux then [0, 1] else [0, 1, 2]))
      else pure .success := by
  unfold allimLogCallstack logBody allimCloseLog
  by_cases hwrite : writeAll r (if pf.linux then [0, 1] else [0, 1, 2]) = .success
  · simp [hwrite]
    rfl
  · simp [hwrite]

theorem allimLogCallstack_releases (pf : Platform) (r : FileReplies) :
    Prog.Releases State.LogHeld (allimLogCallstack pf r)
      (fun s => AllSought (s.region.stack r) s.process.sOpened)
      (fun s => s.logged (s.region.stack r)) := by
  rw [allimLogCallstack_eq]
  refine (Prog.Releases.look fun t => Prog.Releases.ite (p := t.region.mLogStack ≠ 0)
    (fun _ => logBody_releases r _) fun _ => .pure _).congr ?_ ?_
  · intro s
    by_cases h : s.region.mLogStack = 0 <;> simp [h, Region.stack, AllSought]
  · intro s _
    by_cases h : s.region.mLogStack = 0 <;> simp [h, Region.stack]

theorem logWhen_releases (flag : Region → Int) (r : FileReplies) :
    Prog.Releases State.LogHeld (logWhen flag r)
      (fun s => AllSought (s.region.when flag [.line r]) s.process.sOpened)
      (fun s => s.logged (s.region.when flag [.line r])) := by
  refine (Prog.Releases.look fun t => Prog.Releases.ite (p := t.region.mLog ≠ 0 ∧ flag t.region ≠ 0)
    (fun _ => (allimLogWrite_releases r).andThen fun _ => .pure ()) fun _ => .pure ()).congr ?_ ?_
  · intro s
    by_cases h : s.region.mLog ≠ 0 ∧ flag s.region ≠ 0
    · simp [Region.when, h]
    · simp [Region.when, h, AllSought]
  · intro s _
    by_cases h : s.region.mLog ≠ 0 ∧ flag s.region ≠ 0
    · simp [Region.when, h]
    · simp [Region.when, h]

theorem logLines_releases (rs : List FileReplies) :
    Prog.Releases State.LogHeld (logLines rs)
      (fun s => AllSought (rs.map .line) s.process.sOpened)
      (fun s => s.logged (rs.map .line)) := by
  induction rs with
  | nil => exact (Prog.Releases.pure ()).congr (fun s => by simp [AllSought]) fun s _ => rfl
  | cons r rs ih =>
    refine ((allimLogWrite_releases r).andThen fun _ => ih).congr ?_ ?_
    · intro s
      exact (allSought_append [.line r] (rs.map .line) s.process.sOpened).symm
    · intro s _
      exact logged_append s [.line r] (rs.map .line)

/-- A change of the region that leaves the log lock alone. -/
theorem writeRegion_releases {f : Region → Region} (hf : ∀ m, (f m).mLogLock = m.mLogLock) :
    Prog.Releases State.LogHeld (writeRegion f) (fun _ => True)
      (fun s => { s with region := f s.region }) :=
  .update fun s => by simp only [State.LogHeld, hf]

/-- The state with the shared memory attached and `mLock` taken. -/
def State.attached (s : State) (r : Replies) : State where
  region := { s.region with mLock := true }
  process := { s.process with gKey := if s.process.gKey = 0 then r.sKey else s.process.gKey }

/-- A log line without the point leaves the locks alone. -/
theorem allimLogWrite_none (r : FileReplies) (s : State) :
    ∃ rc p, allimLogWrite false r s = .returned rc ⟨s.region, p⟩ := by
  unfold allimLogWrite
  by_cases hprint : r.acpSnprintf = .success
  · have hlock : lockLog false s = .returned () s := rfl
    rw [if_neg (not_not_intro hprint), Prog.bind_returned hlock]
    by_cases hopen : r.opens s.process.sOpened
    · rw [Prog.bind_returned (allimOpenLog_opens r s hopen)]
      by_cases hseek : r.acpFileSeek = .success
      · by_cases hwrite : r.acpFileWrite 0 = .success
        · exact ⟨.success, _, by simp [hseek, hwrite, allimCloseLog, unlockLog]; rfl⟩
        · exact ⟨r.acpFileWrite 0, _, by simp [hseek, hwrite, unlockLog]; rfl⟩
      · exact ⟨r.acpFileSeek, _, by simp [hseek]; rfl⟩
    · obtain ⟨e, he, hfail⟩ := allimOpenLog_fails r s hopen
      rw [Prog.bind_returned hfail, if_pos he]
      exact ⟨e, s.process, rfl⟩
  · rw [if_pos hprint]
    exact ⟨r.acpSnprintf, s.process, rfl⟩

section Attach

variable {r : Replies} {s : State}

theorem getSharedMemory_attaches (h : r.Attaches s.process) :
    allimGetSharedMemory r s =
      .returned .success { s.attached r with region := s.region } := by
  obtain ⟨hread, hattach⟩ := h
  unfold allimGetSharedMemory State.attached
  by_cases hkey : s.process.gKey = 0
  · obtain ⟨henv, hopen, hget, hconv⟩ := hread hkey
    simp [hkey, henv, hopen, hget, hconv, hattach]
  · simp [hkey, hattach]

/-- An error that is logged without the point. -/
private theorem logged_error (f : FileReplies) (t : State) {e : AcpRc} (he : e ≠ .success) :
    ∃ rc p, rc ≠ .success ∧ (allimLogWrite false f >>= fun _ => (pure e : LibProg AcpRc)) t =
      .returned rc ⟨t.region, p⟩ := by
  obtain ⟨_, p, hlog⟩ := allimLogWrite_none f t
  exact ⟨e, p, he, Prog.bind_returned hlog⟩

theorem getSharedMemory_fails (h : ¬ r.Attaches s.process) :
    ∃ rc p, rc ≠ .success ∧ allimGetSharedMemory r s = .returned rc ⟨s.region, p⟩ := by
  unfold allimGetSharedMemory
  rw [Prog.state_bind]
  split_ifs with hkey henv hopen hread hconv hattach
  · exact ⟨_, _, henv, rfl⟩
  · exact logged_error _ _ hopen
  · exact logged_error _ _ hread
  · exact logged_error _ _ hconv
  · exact logged_error _ _ hattach
  · simp only [not_not] at henv hopen hread hconv hattach
    exact absurd ⟨fun _ => ⟨henv, hopen, hread, hconv⟩, hattach⟩ h
  · rename_i hattach
    exact logged_error _ _ hattach
  · rename_i hattach
    exact absurd ⟨fun hzero => absurd hzero hkey, not_not.mp hattach⟩ h

end Attach

/-- The end of `withPoint`. -/
private theorem unlocked {α : Type} (r : Replies) (out : AcpRc × α) (t : State) :
    ∃ a, (unlockLock >>= fun _ => allimReleaseSharedMemory r >>= fun sRC =>
      (if out.1 ≠ .success then pure out else pure (sRC, out.2) : LibProg (AcpRc × α))) t =
      .returned a { t with region := { t.region with mLock := false } } := by
  by_cases hrc : out.1 = .success
  · refine ⟨(r.acpShmDetach, out.2), ?_⟩
    simp only [unlockLock, Prog.update_bind, allimReleaseSharedMemory, Prog.pure_bind_apply, hrc,
      ne_eq, not_true_eq_false, if_false, Prog.pure_apply]
  · refine ⟨out, ?_⟩
    simp only [unlockLock, Prog.update_bind, allimReleaseSharedMemory, Prog.pure_bind_apply, hrc,
      ne_eq, not_false_eq_true, if_true, Prog.pure_apply]

/-- The call with a body that gives the log lock back exactly under `c`. -/
theorem withPoint_returns {α : Type} {r : Replies} {unset : α} {body : LibProg (AcpRc × α)}
    {c : State → Prop} {u : State → State} (hbody : Prog.Releases State.LogHeld body c u)
    {s : State} (hs : s.Free) :
    (((withPoint r unset body) s).Sat fun _ s' => s'.Free) ↔
      (r.Attaches s.process → c (s.attached r)) := by
  unfold withPoint
  by_cases hattach : r.Attaches s.process
  · have hlock : lockLock { s.attached r with region := s.region } =
        .returned () (s.attached r) := by
      simp [lockLock, hs.1, State.attached]
    have hheld : ¬ (s.attached r).LogHeld := by simp [State.LogHeld, State.attached, hs.2]
    rw [Prog.bind_returned (getSharedMemory_attaches hattach), if_neg (not_not_intro rfl),
      Prog.bind_returned hlock]
    by_cases hc : c (s.attached r)
    · obtain ⟨⟨out, hout⟩, hfree⟩ := hbody.free _ hheld hc
      obtain ⟨a, hend⟩ := unlocked r out (u (s.attached r))
      rw [Prog.bind_returned hout, hend]
      simp only [State.LogHeld, Bool.not_eq_true] at hfree
      exact iff_of_true ⟨rfl, hfree⟩ fun _ => hc
    · refine iff_of_false ?_ fun h => hc (h hattach)
      apply Prog.not_sat_bind (hbody.lost _ hheld hc)
      intro out t ht
      obtain ⟨a, hend⟩ := unlocked r out t
      rw [hend]
      intro hfree
      rw [State.LogHeld, ← Bool.not_eq_false] at ht
      exact ht hfree.2
  · obtain ⟨rc, p, hrc, hget⟩ := getSharedMemory_fails hattach
    rw [Prog.bind_returned hget, if_pos hrc]
    exact iff_of_true hs fun h => absurd h hattach

/-- A body that only reads. -/
theorem read_releases {α : Type} (f : State → AcpRc × α) :
    Prog.Releases State.LogHeld (Prog.state >>= fun s => (pure (f s) : LibProg (AcpRc × α)))
      (fun _ => True) id :=
  .look fun t => .pure (f t)

/-- A body that writes, logs when its flag is set, and ends. -/
theorem write_releases {f : Region → Region} {flag : Region → Int} {r : FileReplies}
    (hlock : ∀ m, (f m).mLogLock = m.mLogLock)
    (hflags : ∀ m, (f m).when flag [.line r] = m.when flag [.line r]) :
    Prog.Releases State.LogHeld
      (writeRegion f >>= fun _ => logWhen flag r >>= fun _ => pure (AcpRc.success, ()))
      (fun s => AllSought (s.region.when flag [.line r]) s.process.sOpened)
      (fun s => (State.mk (f s.region) s.process).logged (s.region.when flag [.line r])) := by
  refine ((writeRegion_releases hlock).andThen fun _ =>
    (logWhen_releases flag r).andThen fun _ => .pure _).congr ?_ ?_
  · intro s
    simp only [hflags, and_true, true_and]
  · intro s _
    simp only [Function.comp_apply, hflags, id_eq]

theorem logActivated_releases (pf : Platform) (r : Replies) :
    Prog.Releases State.LogHeld (logActivated pf r)
      (fun s => AllSought (s.region.when Region.mLogLimit
        (.line (r.logs 2) :: s.region.stack (r.logs 3))) s.process.sOpened)
      (fun s => s.logged (s.region.when Region.mLogLimit
        (.line (r.logs 2) :: s.region.stack (r.logs 3)))) := by
  refine (Prog.Releases.look fun t => Prog.Releases.ite
    (p := t.region.mLog ≠ 0 ∧ t.region.mLogLimit ≠ 0)
    (fun _ => (allimLogWrite_releases (r.logs 2)).andThen fun _ =>
      (allimLogCallstack_releases pf (r.logs 3)).andThen fun _ => .pure ())
    fun _ => .pure ()).congr ?_ ?_
  · intro s
    by_cases h : s.region.mLog ≠ 0 ∧ s.region.mLogLimit ≠ 0
    · rw [if_pos h, Region.when, if_pos h, and_true]
      exact (allSought_append [.line (r.logs 2)] (s.region.stack (r.logs 3)) _).symm
    · simp [Region.when, h, AllSought]
  · intro s _
    by_cases h : s.region.mLog ≠ 0 ∧ s.region.mLogLimit ≠ 0
    · rw [if_pos h, Region.when, if_pos h]
      exact logged_append s [.line (r.logs 2)] (s.region.stack (r.logs 3))
    · simp [Region.when, h]

theorem hitPoint_releases (pf : Platform) (i : Fin maxThreads) (r : Replies) :
    ∃ u, Prog.Releases State.LogHeld (hitPoint pf i r)
      (fun s => AllSought (s.region.hitLogged i r) s.process.sOpened) u := by
  have hbody := Prog.Releases.look fun t : State =>
    (writeRegion_releases (f := fun m =>
      { m with point := m.point.setHitCount i (t.region.point.mHitCounts i - 1) })
        fun _ => rfl).andThen fun _ =>
    (logWhen_releases Region.mLogHit (r.logs 1)).andThen fun _ =>
    Prog.Releases.ite (p := t.region.point.mHitCounts i - 1 = 0)
      (fun _ => (logActivated_releases pf r).andThen fun _ =>
        Prog.Releases.look fun t' : State => (writeRegion_releases (f := fun m =>
          { m with point := m.point.setHitCount i m.point.mCount }) fun _ => rfl).andThen fun _ =>
            Prog.Releases.pure (AcpRc.success, t'.region.point.mErrNo, true))
      fun _ => Prog.Releases.pure (AcpRc.success, (0 : Int), false)
  refine ⟨_, hbody.congr ?_ fun _ _ => rfl⟩
  intro s
  rw [Region.hitLogged, allSought_append, true_and]
  by_cases hzero : s.region.point.mHitCounts i - 1 = 0
  · rw [if_pos hzero, if_pos hzero, and_true, and_true]
    rfl
  · rw [if_neg hzero, if_neg hzero]
    rfl

theorem logSettings_releases (r : Replies) :
    Prog.Releases State.LogHeld (logSettings r)
      (fun s => AllSought (s.region.settingsLogged r) s.process.sOpened)
      (fun s => s.logged (s.region.settingsLogged r)) := by
  refine (Prog.Releases.look fun t => Prog.Releases.ite (p := t.region.mLog ≠ 0)
    (fun _ => logLines_releases _) fun _ => .pure ()).congr ?_ ?_
  · intro s
    by_cases h : s.region.mLog = 0
    · simp [h, Region.settingsLogged, AllSought]
    · simp [h, Region.settingsLogged, Function.comp_def]
  · intro s _
    by_cases h : s.region.mLog = 0
    · simp [h, Region.settingsLogged]
    · simp [h, Region.settingsLogged, Function.comp_def]

theorem passCompared_releases (pf : Platform) (i : Fin maxThreads) (r : Replies)
    (p : AllimPoint) (c : Compared) :
    ∃ v, Prog.Releases State.LogHeld (passCompared pf i r p c)
      (fun s => AllSought (if c = .counted then s.region.hitLogged i r else [])
        s.process.sOpened) v := by
  cases c with
  | always | other =>
    exact ⟨_, (Prog.Releases.pure _).congr (fun s => by simp [AllSought]) fun _ _ => rfl⟩
  | counted => exact hitPoint_releases pf i r

theorem passScanned_releases (pf : Platform) (aFile aID : Text) (r : Replies)
    (found : Option (Fin maxThreads)) :
    ∃ v, Prog.Releases State.LogHeld (passScanned pf aFile aID r found)
      (fun s => AllSought (s.region.scannedLogged pf aFile aID r found) s.process.sOpened) v := by
  cases found with
  | none =>
    exact ⟨_, (Prog.Releases.pure _).congr
      (fun s => by simp [Region.scannedLogged, AllSought]) fun _ _ => rfl⟩
  | some i =>
    obtain ⟨v, hv⟩ := Prog.Releases.exists_look fun t : State =>
      passCompared_releases pf i r t.region.point (t.region.point.compare pf.toAcp aFile aID)
    refine ⟨_, ((writeRegion_releases (f := fun m =>
      { m with point := m.point.enter i r.acpThrGetSelfID }) fun _ => rfl).andThen fun _ =>
        hv).congr ?_ fun _ _ => rfl⟩
    intro s
    rw [true_and]
    rfl

theorem doneScanned_releases (found : Option (Fin maxThreads)) :
    ∃ v, Prog.Releases State.LogHeld (doneScanned found) (fun _ => True) v := by
  cases found with
  | none => exact ⟨_, .pure _⟩
  | some i =>
    have hbody := (writeRegion_releases (f := fun m =>
      { m with point := m.point.enter i 0 }) fun _ => rfl).andThen fun _ =>
        Prog.Releases.pure (AcpRc.success, ())
    exact ⟨_, hbody.congr (fun _ => by simp) fun _ _ => rfl⟩

theorem memoryChanged_releases (r : Replies) (change : Option (Nat × Int)) :
    ∃ v, Prog.Releases State.LogHeld (memoryChanged r change) (fun s => change.isSome ∧
      AllSought (s.region.when Region.mLogReal [.line (r.logs 0)]) s.process.sOpened) v := by
  cases change with
  | none => exact ⟨_, Prog.Releases.fault.congr (fun s => by simp) fun _ _ => rfl⟩
  | some out =>
    have hbody := (Prog.Releases.update (f := fun s : State =>
      ⟨{ s.region with mMemory := out.2, mDestMemory := out.2 },
        { s.process with sChunk := out.1 }⟩) fun _ => Iff.rfl).andThen fun _ =>
      (logWhen_releases Region.mLogReal (r.logs 0)).andThen fun _ =>
        Prog.Releases.pure (AcpRc.success, ())
    refine ⟨_, hbody.congr (fun s => ?_) fun _ _ => rfl⟩
    simp only [Option.isSome_some, true_and, and_true]
    rfl

theorem descChanged_releases (r : Replies) (change : Option Int) :
    ∃ v, Prog.Releases State.LogHeld (descChanged r change) (fun s => change.isSome ∧
      AllSought (s.region.when Region.mLogReal [.line (r.logs 0)]) s.process.sOpened) v := by
  cases change with
  | none => exact ⟨_, Prog.Releases.fault.congr (fun s => by simp) fun _ _ => rfl⟩
  | some sDest =>
    have hbody := (logWhen_releases Region.mLogReal (r.logs 0)).andThen fun _ =>
      (writeRegion_releases (f := fun m => { m with mDesc := sDest }) fun _ => rfl).andThen
        fun _ => Prog.Releases.pure (AcpRc.success, ())
    refine ⟨_, hbody.congr (fun s => ?_) fun _ _ => rfl⟩
    simp only [Option.isSome_some, true_and, and_true]

/-- A body that does nothing but where the target differs from what there is. -/
theorem changing_releases {d : State → Prop} {body : State → LibProg (AcpRc × Unit)}
    {p : State → Prop} [DecidablePred p] {done : State → Prop}
    (hbody : ∀ t, ∃ v, Prog.Releases State.LogHeld (body t) (fun s => done t ∧ d s) v) :
    ∃ v, Prog.Releases State.LogHeld
      (Prog.state >>= fun t => if p t then body t else pure (AcpRc.success, ()))
      (fun s => p s → done s ∧ d s) v := by
  refine Prog.Releases.exists_look (d := fun t s => p t → done t ∧ d s) fun t => ?_
  by_cases hne : p t
  · obtain ⟨v, hv⟩ := hbody t
    rw [if_pos hne]
    exact ⟨v, hv.congr (fun s => ⟨fun h _ => h, fun h => h hne⟩) fun _ _ => rfl⟩
  · rw [if_neg hne]
    exact ⟨_, (Prog.Releases.pure _).congr (fun s => by simp [hne]) fun _ _ => rfl⟩

section Functions

variable (pf : Platform) (r : Replies) {s : State} (hs : s.Free)
include hs

theorem allimPointSet_returns (aFile aID : Text) (aCount aErrNo : Int) :
    ((allimPointSet pf aFile aID aCount aErrNo r s).Sat fun _ s' => s'.Free) ↔
      (r.Attaches s.process →
        AllSought (s.region.when Region.mLogSet [.line (r.logs 0)]) s.process.sOpened) := by
  apply withPoint_returns (write_releases ?_ ?_) hs <;> exact fun _ => rfl

theorem allimPointClear_returns :
    ((allimPointClear r s).Sat fun _ s' => s'.Free) ↔
      (r.Attaches s.process →
        AllSought (s.region.when Region.mLogSet [.line (r.logs 0)]) s.process.sOpened) := by
  apply withPoint_returns (write_releases ?_ ?_) hs <;> exact fun _ => rfl

theorem allimSetMemoryWaste_returns (aDest : Int) :
    ((allimSetMemoryWaste aDest r s).Sat fun _ s' => s'.Free) ↔
      (r.Attaches s.process →
        AllSought (s.region.when Region.mLogReal [.line (r.logs 0)]) s.process.sOpened) := by
  apply withPoint_returns (write_releases ?_ ?_) hs <;> exact fun _ => rfl

theorem allimSetDiskWaste_returns (aPath : Text) (aDest : Int) :
    ((allimSetDiskWaste pf aPath aDest r s).Sat fun _ s' => s'.Free) ↔
      (r.Attaches s.process →
        AllSought (s.region.when Region.mLogReal [.line (r.logs 0)]) s.process.sOpened) := by
  apply withPoint_returns (write_releases ?_ ?_) hs <;> exact fun _ => rfl

theorem allimSetDescWaste_returns (aDest : Int) :
    ((allimSetDescWaste aDest r s).Sat fun _ s' => s'.Free) ↔
      (r.Attaches s.process →
        AllSought (s.region.when Region.mLogReal [.line (r.logs 0)]) s.process.sOpened) := by
  apply withPoint_returns (write_releases ?_ ?_) hs <;> exact fun _ => rfl

theorem allimPointPass_returns (aFile aID : Text) :
    ((allimPointPass pf aFile aID r s).Sat fun _ s' => s'.Free) ↔
      (r.Attaches s.process →
        AllSought (s.region.passLogged pf aFile aID r) s.process.sOpened) := by
  obtain ⟨v, hv⟩ := Prog.Releases.exists_look fun t : State =>
    passScanned_releases pf aFile aID r (t.region.point.scan r.acpThrGetSelfID)
  have hbody := (logWhen_releases Region.mLogPass (r.logs 0)).andThen fun _ => hv
  refine (withPoint_returns hbody hs).trans ?_
  rw [Region.passLogged, allSought_append]
  rfl

theorem allimPointDone_returns : (allimPointDone r s).Sat fun _ s' => s'.Free := by
  obtain ⟨v, hv⟩ := Prog.Releases.exists_look fun t : State =>
    doneScanned_releases (t.region.point.scan r.acpThrGetSelfID)
  exact (withPoint_returns hv hs).mpr fun _ => trivial

theorem allimEnableLogging_returns (aLog : Int) :
    ((allimEnableLogging aLog r s).Sat fun _ s' => s'.Free) ↔
      (r.Attaches s.process → AllSought [.line (r.logs 0)] s.process.sOpened) := by
  have hbody := (writeRegion_releases (f := fun m => { m with mLog := aLog }) fun _ => rfl).andThen
    fun _ => (allimLogWrite_releases (r.logs 0)).andThen fun _ =>
      Prog.Releases.pure (AcpRc.success, ())
  refine (withPoint_returns hbody hs).trans ?_
  simp only [true_and, and_true]
  rfl

theorem allimSetLogging_returns (aLogPass aLogHit aLogLimit aLogStack aLogSet aLogReal : Int) :
    ((allimSetLogging aLogPass aLogHit aLogLimit aLogStack aLogSet aLogReal r s).Sat
        fun _ s' => s'.Free) ↔
      (r.Attaches s.process → AllSought (s.region.settingsLogged r) s.process.sOpened) := by
  have hbody := (writeRegion_releases (f := fun m => { m with
    mLogPass := aLogPass, mLogHit := aLogHit, mLogLimit := aLogLimit, mLogStack := aLogStack,
    mLogSet := aLogSet, mLogReal := aLogReal }) fun _ => rfl).andThen
    fun _ => (logSettings_releases r).andThen fun _ => Prog.Releases.pure (AcpRc.success, ())
  refine (withPoint_returns hbody hs).trans ?_
  simp only [true_and, and_true]
  rfl

end Functions

theorem freeChunks_isSome (aDest : Int) (n : Nat) (aCurrent : Int) :
    (freeChunks aDest n aCurrent).isSome ↔ aCurrent - aDest ≤ chunkSize * n := by
  induction n generalizing aCurrent with
  | zero =>
    by_cases h : aDest < aCurrent
    · simp [freeChunks, h]
    · simp only [freeChunks, if_neg h, Option.isSome_some, true_iff]
      omega
  | succ n ih =>
    have hchunk : chunkSize = 1048576 := rfl
    by_cases h : aDest < aCurrent
    · simp only [freeChunks, if_pos h, ih, hchunk]
      omega
    · simp only [freeChunks, if_neg h, hchunk]
      simp only [Option.isSome_some, true_iff]
      omega

theorem changeMemory_isSome (r : Replies) (sChunk : Nat) (sCurrent sDest : Int) :
    (changeMemory r sChunk sCurrent sDest).isSome ↔
      (sDest < sCurrent → sChunk = 0 ∨ sCurrent - sDest ≤ chunkSize * sChunk) := by
  unfold changeMemory allimFreeMemory
  by_cases hgrow : sCurrent < sDest
  · simp [hgrow, Int.lt_asymm hgrow]
  · by_cases hempty : sChunk = 0
    · simp [hgrow, hempty]
    · rw [if_neg hgrow, if_neg hempty, freeChunks_isSome]
      have hchunk : chunkSize = 1048576 := rfl
      simp only [hempty, false_or, hchunk]
      omega

theorem openSocks_isSome (acpSockOpen : Int → AcpRc) (n : Nat) (i : Int) :
    (openSocks acpSockOpen n i).isSome ↔ n = 0 ∨
      0 ≤ i ∧ (i + n ≤ descMax ∨ ∃ j, i ≤ j ∧ j < descMax ∧ acpSockOpen j ≠ .success) := by
  induction n generalizing i with
  | zero => simp [openSocks]
  | succ n ih =>
    by_cases hin : InSocks i
    · by_cases hopen : acpSockOpen i = .success
      · rw [openSocks, if_neg (not_not_intro hin), if_neg (not_not_intro hopen), ih]
        -- the first failure is not at `i`
        have hfail : (∃ j, i ≤ j ∧ j < descMax ∧ acpSockOpen j ≠ .success) ↔
            ∃ j, i + 1 ≤ j ∧ j < descMax ∧ acpSockOpen j ≠ .success := by
          constructor
          · rintro ⟨j, hij, hj, hne⟩
            have hji : j ≠ i := fun h => hne (h ▸ hopen)
            exact ⟨j, by omega, hj, hne⟩
          · rintro ⟨j, hij, hj, hne⟩
            exact ⟨j, by omega, hj, hne⟩
        rw [hfail]
        have := hin.1
        have := hin.2
        constructor
        · rintro (rfl | ⟨_, h | h⟩)
          · exact .inr ⟨by omega, .inl (by omega)⟩
          · exact .inr ⟨by omega, .inl (by omega)⟩
          · exact .inr ⟨by omega, .inr h⟩
        · rintro (h | ⟨_, h | h⟩)
          · omega
          · exact .inr ⟨by omega, .inl (by omega)⟩
          · exact .inr ⟨by omega, .inr h⟩
      · rw [openSocks, if_neg (not_not_intro hin), if_pos hopen]
        exact iff_of_true rfl (.inr ⟨hin.1, .inr ⟨i, le_refl i, hin.2, hopen⟩⟩)
    · rw [openSocks, if_pos hin]
      refine iff_of_false (by simp) ?_
      rintro (h | ⟨hi, h | ⟨j, hij, hj, _⟩⟩)
      · omega
      · exact hin ⟨hi, by omega⟩
      · exact hin ⟨hi, by omega⟩

theorem closeSocks_isSome (n : Nat) (i : Int) :
    (closeSocks n i).isSome ↔ n = 0 ∨ 0 ≤ i - n ∧ i ≤ descMax := by
  induction n generalizing i with
  | zero => simp [closeSocks]
  | succ n ih =>
    by_cases hin : InSocks (i - 1)
    · rw [closeSocks, if_neg (not_not_intro hin), ih]
      have := hin.1
      have := hin.2
      omega
    · rw [closeSocks, if_pos hin]
      refine iff_of_false (by simp) ?_
      rintro (h | ⟨hlow, hhigh⟩)
      · omega
      · exact hin ⟨by omega, by omega⟩

theorem changeDesc_isSome (r : Replies) (sCurrent sDest : Int) (hne : sDest ≠ sCurrent) :
    (changeDesc r sCurrent sDest).isSome ↔
      (sCurrent < sDest → 0 ≤ sCurrent ∧ (sDest ≤ descMax ∨
        ∃ i, sCurrent ≤ i ∧ i < descMax ∧ r.acpSockOpen i ≠ .success)) ∧
      (sDest < sCurrent → 0 ≤ sDest ∧ sCurrent ≤ descMax) := by
  unfold changeDesc
  by_cases hgrow : sCurrent < sDest
  · have hdest : sCurrent + ((sDest - sCurrent).toNat : Int) = sDest := by omega
    have hpos : (sDest - sCurrent).toNat ≠ 0 := by omega
    rw [if_pos hgrow, openSocks_isSome, hdest]
    simp [hpos, hgrow, Int.lt_asymm hgrow]
  · have hdest : sCurrent - ((sCurrent - sDest).toNat : Int) = sDest := by omega
    have hpos : (sCurrent - sDest).toNat ≠ 0 := by omega
    have hshrink : sDest < sCurrent := by omega
    rw [if_neg hgrow, closeSocks_isSome, hdest]
    simp [hpos, hgrow, hshrink]

section Waste

variable (r : Replies) {s : State} (hs : s.Free)
include hs

theorem allimMemory_returns (pf : Platform) :
    ((allimMemory r s).Sat fun _ s' => s'.Free) ↔ (r.Attaches s.process →
      AllSought (Call.logged pf r s.region .memory) s.process.sOpened ∧
        Call.InRange r s .memory) := by
  obtain ⟨v, hv⟩ := changing_releases (p := fun t => t.region.mDestMemory ≠ t.region.mMemory)
    fun t => memoryChanged_releases r
      (changeMemory r t.process.sChunk t.region.mMemory t.region.mDestMemory)
  refine (withPoint_returns hv hs).trans (imp_congr_right fun _ => ?_)
  by_cases hne : s.region.mDestMemory = s.region.mMemory
  · simp [State.attached, Call.logged, Call.InRange, AllSought, hne]
  · have hsome := changeMemory_isSome r s.process.sChunk s.region.mMemory s.region.mDestMemory
    have hlogged : Call.logged pf r s.region .memory =
        s.region.when Region.mLogReal [.line (r.logs 0)] := if_pos hne
    rw [hlogged, and_comm]
    exact (forall_prop_of_true hne).trans (and_congr_right fun _ => hsome)

theorem allimDesc_returns (pf : Platform) :
    ((allimDesc r s).Sat fun _ s' => s'.Free) ↔ (r.Attaches s.process →
      AllSought (Call.logged pf r s.region .desc) s.process.sOpened ∧ Call.InRange r s .desc) := by
  obtain ⟨v, hv⟩ := changing_releases (p := fun t => t.region.mDestDesc ≠ t.region.mDesc)
    fun t => descChanged_releases r (changeDesc r t.region.mDesc t.region.mDestDesc)
  refine (withPoint_returns hv hs).trans (imp_congr_right fun _ => ?_)
  by_cases hne : s.region.mDestDesc = s.region.mDesc
  · simp [State.attached, Call.logged, Call.InRange, AllSought, hne]
  · have hlogged : Call.logged pf r s.region .desc =
        s.region.when Region.mLogReal [.line (r.logs 0)] := if_pos hne
    rw [hlogged, and_comm]
    exact (forall_prop_of_true hne).trans (and_congr_right fun _ =>
      changeDesc_isSome r s.region.mDesc s.region.mDestDesc hne)

end Waste

/-- A program that comes back with the region as it was. -/
def Harmless {α : Type} (m : LibProg α) (s : State) : Prop :=
  ∃ a p, m s = .returned a ⟨s.region, p⟩

theorem Harmless.bind {α β : Type} {m : LibProg α} {k : α → LibProg β} {s : State}
    (hm : Harmless m s) (hk : ∀ a p, Harmless (k a) ⟨s.region, p⟩) : Harmless (m >>= k) s := by
  obtain ⟨a, p, hm⟩ := hm
  obtain ⟨b, q, hk⟩ := hk a p
  exact ⟨b, q, (Prog.bind_returned hm).trans hk⟩

theorem Harmless.pure {α : Type} (a : α) (s : State) : Harmless (Pure.pure a) s :=
  ⟨a, s.process, rfl⟩

theorem Harmless.sat_iff {α : Type} {m : LibProg α} {s : State} (h : Harmless m s) :
    ((m s).Sat fun _ s' => s'.Free) ↔ s.Free := by
  obtain ⟨a, p, h⟩ := h
  rw [h]
  rfl

theorem Harmless.sat {α : Type} {m : LibProg α} {s : State} (h : Harmless m s) (hs : s.Free) :
    (m s).Sat fun _ s' => s'.Free :=
  h.sat_iff.mpr hs

theorem allimCreateLog_harmless (r : FileReplies) (s : State) : Harmless (allimCreateLog r) s := by
  unfold allimCreateLog
  split_ifs <;> exact .pure _ s

theorem allimOpenLog_harmless (r : FileReplies) (s : State) : Harmless (allimOpenLog r) s := by
  by_cases h : r.opens s.process.sOpened
  · exact ⟨_, _, allimOpenLog_opens r s h⟩
  · obtain ⟨e, _, hfail⟩ := allimOpenLog_fails r s h
    exact ⟨e, s.process, hfail⟩

theorem allimGetSharedMemory_harmless (r : Replies) (s : State) :
    Harmless (allimGetSharedMemory r) s := by
  by_cases h : r.Attaches s.process
  · exact ⟨_, _, getSharedMemory_attaches h⟩
  · obtain ⟨rc, p, _, hget⟩ := getSharedMemory_fails h
    exact ⟨rc, p, hget⟩

theorem allimIsProceeding_harmless (r : Replies) (s : State) :
    Harmless (allimIsProceeding r) s := by
  apply (allimGetSharedMemory_harmless r s).bind
  intro rc p
  by_cases hrc : rc ≠ .success
  · rw [if_pos hrc]
    exact Harmless.bind (allimLogWrite_none _ _) fun _ _ => .pure _ _
  · rw [if_neg hrc]
    exact .pure _ _

theorem allimDestroy_harmless (r : Replies) (s : State) : Harmless (allimDestroy r) s := by
  unfold allimDestroy
  split_ifs <;> exact .pure _ s

/-- A program without a body under `mLock`. -/
theorem releases_returns {α : Type} {m : LibProg α} {c : State → Prop} {u : State → State}
    (hm : Prog.Releases State.LogHeld m c u) {s : State} (hs : s.Free)
    (hu : (u s).region.mLock = false) : ((m s).Sat fun _ s' => s'.Free) ↔ c s := by
  have hheld : ¬ s.LogHeld := by simp [State.LogHeld, hs.2]
  by_cases hc : c s
  · obtain ⟨⟨a, hma⟩, hfree⟩ := hm.free s hheld hc
    simp only [State.LogHeld, Bool.not_eq_true] at hfree
    rw [hma]
    exact iff_of_true ⟨hu, hfree⟩ hc
  · refine iff_of_false (fun hsat => ?_) hc
    have hlost := hm.lost s hheld hc
    cases hend : m s with
    | returned a t =>
      rw [hend] at hsat hlost
      have hheld : t.region.mLogLock = true := hlost
      rw [hsat.2] at hheld
      cases hheld
    | blocked | faulted =>
      rw [hend] at hsat
      exact hsat

theorem logShm_harmless (aKey : Int) (r : Replies) (s : State) : Harmless (logShm aKey r) s := by
  unfold logShm
  split_ifs
  all_goals first | exact .pure _ s | exact ⟨_, _, rfl⟩

theorem allimCreate_returns (aKey : Int) (r : Replies) {s : State} (hs : s.Free) :
    ((allimCreate aKey r s).Sat fun _ s' => s'.Free) ↔
      (Call.Reaches r s.process (.create aKey) →
        AllSought [.line (r.logs 0)] s.process.sOpened) := by
  by_cases hreach : Call.Reaches r s.process (.create aKey)
  · have hlog := releases_returns (allimLogWrite_releases (r.logs 0))
      (s := ⟨.created, s.process⟩) ⟨rfl, rfl⟩ rfl
    have hcreate : allimCreate aKey r s = (allimLogWrite true (r.logs 0) >>= fun sRC =>
        if sRC ≠ .success then pure sRC else logShm aKey r) ⟨.created, s.process⟩ := by
      obtain ⟨henv, hopen, hcreate, hattach⟩ := hreach
      simp only [allimCreate, allimCreateLog, henv, hopen, hcreate, hattach, ne_eq,
        not_true_eq_false, if_false]
      rfl
    rw [hcreate]
    refine (Prog.sat_bind_iff fun rc t => ?_).trans
      (hlog.trans ⟨fun h _ => h, fun h => h hreach⟩)
    apply Harmless.sat_iff
    split_ifs
    · exact .pure rc t
    · exact logShm_harmless aKey r t
  · refine iff_of_true ?_ fun h => absurd h hreach
    apply Harmless.sat _ hs
    by_cases henv : r.created.acpEnvGet = .success
    · by_cases hopen : r.created.acpFileOpen = .success
      · by_cases hcreate : r.acpShmCreate = .success
        · have hattach : r.acpShmAttach ≠ .success := fun h => hreach ⟨henv, hopen, hcreate, h⟩
          exact ⟨r.acpShmAttach, s.process, by
            simp [allimCreate, allimCreateLog, henv, hopen, hcreate, hattach]⟩
        · exact ⟨r.acpShmCreate, s.process, by
            simp [allimCreate, allimCreateLog, henv, hopen, hcreate]⟩
      · exact ⟨r.created.acpFileOpen, s.process, by
          simp [allimCreate, allimCreateLog, henv, hopen]⟩
    · exact ⟨r.created.acpEnvGet, s.process, by simp [allimCreate, allimCreateLog, henv]⟩

/-- A call that logs nothing with the point. -/
private theorem quiet_iff {α : Type} {m : LibProg α} {s : State} {P : Prop}
    (hm : (m s).Sat fun _ s' => s'.Free) :
    (((do let _ ← m; pure ()) : LibProg Unit) s).Sat (fun _ s' => s'.Free) ↔
      (P → AllSought [] s.process.sOpened ∧ True) :=
  iff_of_true ((Prog.sat_discard m s).mpr hm) fun _ => ⟨trivial, trivial⟩

/-- A call that does not touch the memory and the descriptors. -/
private theorem logging_iff {α : Type} {m : LibProg α} {s : State} {P Q : Prop}
    (hm : ((m s).Sat fun _ s' => s'.Free) ↔ (P → Q)) :
    (((do let _ ← m; pure ()) : LibProg Unit) s).Sat (fun _ s' => s'.Free) ↔ (P → Q ∧ True) := by
  rw [Prog.sat_discard, hm, and_true]

/-- A call from a state with the locks free returns with the locks free if and only if it is
safe. -/
theorem returns_iff_safe (pf : Platform) (r : Replies) {s : State} (hs : s.Free) (c : Call) :
    c.Returns pf r s ↔ c.Safe pf r s := by
  unfold Call.Returns Call.Safe
  cases c with
  | createLog => exact quiet_iff ((allimCreateLog_harmless _ s).sat hs)
  | openLog => exact quiet_iff ((allimOpenLog_harmless _ s).sat hs)
  | closeLog => exact quiet_iff (Harmless.sat (.pure _ s) hs)
  | logCallstack =>
    have hm := releases_returns (allimLogCallstack_releases pf (r.logs 0)) hs hs.1
    exact logging_iff ⟨fun h _ => hm.mp h, fun h => hm.mpr (h trivial)⟩
  | logWrite aPoint =>
    cases aPoint with
    | false => exact quiet_iff (Harmless.sat (allimLogWrite_none _ s) hs)
    | true =>
      have hm := releases_returns (allimLogWrite_releases (r.logs 0)) hs hs.1
      exact logging_iff ⟨fun h _ => hm.mp h, fun h => hm.mpr (h trivial)⟩
  | isProceeding => exact quiet_iff ((allimIsProceeding_harmless r s).sat hs)
  | getSharedMemory => exact quiet_iff ((allimGetSharedMemory_harmless r s).sat hs)
  | releaseSharedMemory => exact quiet_iff (Harmless.sat (.pure _ s) hs)
  | create aKey => exact logging_iff (allimCreate_returns aKey r hs)
  | destroy => exact quiet_iff ((allimDestroy_harmless r s).sat hs)
  | pointSet aFile aID aCount aErrNo =>
    exact logging_iff (allimPointSet_returns pf r hs aFile aID aCount aErrNo)
  | pointGet => exact quiet_iff ((withPoint_returns (read_releases _) hs).mpr fun _ => trivial)
  | pointClear => exact logging_iff (allimPointClear_returns r hs)
  | pointPass aFile aID => exact logging_iff (allimPointPass_returns pf r hs aFile aID)
  | pointDone => exact quiet_iff (allimPointDone_returns r hs)
  | enableLogging aLog => exact logging_iff (allimEnableLogging_returns r hs aLog)
  | setLogging aLogPass aLogHit aLogLimit aLogStack aLogSet aLogReal =>
    exact logging_iff
      (allimSetLogging_returns r hs aLogPass aLogHit aLogLimit aLogStack aLogSet aLogReal)
  | getLogging => exact quiet_iff ((withPoint_returns (read_releases _) hs).mpr fun _ => trivial)
  | setMemoryWaste aDest => exact logging_iff (allimSetMemoryWaste_returns r hs aDest)
  | getMemoryWaste =>
    exact quiet_iff ((withPoint_returns (read_releases _) hs).mpr fun _ => trivial)
  | memory => exact (Prog.sat_discard _ s).trans (allimMemory_returns r hs pf)
  | setDiskWaste aPath aDest => exact logging_iff (allimSetDiskWaste_returns pf r hs aPath aDest)
  | getDiskWaste =>
    exact quiet_iff ((withPoint_returns (read_releases _) hs).mpr fun _ => trivial)
  | disk => exact quiet_iff (Harmless.sat (.pure _ s) hs)
  | setDescWaste aDest => exact logging_iff (allimSetDescWaste_returns r hs aDest)
  | getDescWaste =>
    exact quiet_iff ((withPoint_returns (read_releases _) hs).mpr fun _ => trivial)
  | desc => exact (Prog.sat_discard _ s).trans (allimDesc_returns r hs pf)

/-- The shared memory with the processes under test. -/
structure World (P : Type) where
  region : Region
  process : P → Process

variable {P : Type}

/-- The state that a process works on. -/
def World.of (w : World P) (p : P) : State := ⟨w.region, w.process p⟩

/-- A call of a process, with the answers it gets. -/
structure Step (P : Type) where
  process : P
  replies : Replies
  call : Call

def World.step [DecidableEq P] (pf : Platform) (w : World P) (l : Step P) : Option (World P) :=
  match l.call.run pf l.replies (w.of l.process) with
  | .returned _ s => some ⟨s.region, Function.update w.process l.process s.process⟩
  | .blocked | .faulted => none

/-- Call after call of the processes. -/
def library [DecidableEq P] (pf : Platform) (start : World P) : Machine (World P) (Step P) where
  start := start
  step := World.step pf

/-- In every run of safe calls that starts with the locks free, each further call returns with
the locks free if and only if it is safe: no seek in the log fails under `mLogLock`, and the call
keeps to the chunks and sockets there are. -/
theorem locks_released_iff [DecidableEq P] (pf : Platform) (start : World P)
    (hstart : start.region.mLock = false ∧ start.region.mLogLock = false) (w : World P)
    (h : (library pf start).Reach (fun w l => l.call.Safe pf l.replies (w.of l.process)) w)
    (l : Step P) :
    l.call.Returns pf l.replies (w.of l.process) ↔ l.call.Safe pf l.replies (w.of l.process) := by
  have hfree : w.region.mLock = false ∧ w.region.mLogLock = false := by
    refine h.invariant (I := fun w => w.region.mLock = false ∧ w.region.mLogLock = false)
      hstart ?_
    intro w l w' hw hsafe hstep
    have hreturns := (returns_iff_safe pf l.replies (s := w.of l.process) hw l.call).mpr hsafe
    simp only [library, World.step] at hstep
    unfold Call.Returns at hreturns
    cases hrun : l.call.run pf l.replies (w.of l.process) with
    | returned a s =>
      rw [hrun] at hstep hreturns
      cases hstep
      exact hreturns
    | blocked | faulted =>
      rw [hrun] at hstep
      cases hstep
  exact returns_iff_safe pf l.replies (s := w.of l.process) hfree l.call

section Leak

/-- Every answer is a success but those of the seek in the log. -/
def answers (acpFileSeek : AcpRc) : Replies :=
  let file : FileReplies :=
    ⟨.success, .success, acpFileSeek, .success, .success, .success, fun _ => .success, .success⟩
  ⟨file, 7, .success, .success, .success, .success, file, fun _ => file, thread1,
    fun _ => .success, fun _ => .success⟩

def plainPlatform : Platform := ⟨plainAcp, true⟩

/-- One process on a fresh region. -/
def fresh : World Unit := ⟨.created, fun _ => ⟨false, 7, 0⟩⟩

def setPoint : Call := .pointSet "AFile".toList "AID".toList 1 28

/-- A point is set while the seek in the log fails; whoever sets the next point waits for ever. -/
theorem log_lock_kept_by_failed_seek :
    ∃ s, setPoint.run plainPlatform (answers .failed) (fresh.of ()) = .returned () s ∧
      s.region.mLogLock = true ∧
      setPoint.run plainPlatform (answers .success) s = .blocked ∧
      ¬ setPoint.Returns plainPlatform (answers .failed) (fresh.of ()) :=
  ⟨_, rfl, rfl, rfl, fun h => nomatch h.2⟩

theorem locks_released_iff_fresh :
    setPoint.Returns plainPlatform (answers .success) (fresh.of ()) ↔
      setPoint.Safe plainPlatform (answers .success) (fresh.of ()) :=
  locks_released_iff plainPlatform fresh ⟨rfl, rfl⟩ fresh .start ⟨(), answers .success, setPoint⟩

end Leak

end Natc.Allim.Shared
