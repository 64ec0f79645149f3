import Natc.Allim.LimitPoint
import Natc.Lib.Prog

/-!
# The allim library

The limit point lives in shared memory, together with the targets of the real limits and with two
spin locks: `mLock` around every use of the point, `mLogLock` around every line of the log. A call
is a program over the shared memory and the process's own data; what the core library answers is
its input.
-/

namespace Natc.Allim.Shared

open Lib

/-- What a function of the core library returns. -/
inductive AcpRc where
  | success | enomem | enospc | failed
  deriving DecidableEq, Repr

/-- The build: its core library, and whether it takes the GNU/Linux branch of the call stack. -/
structure Platform extends Acp where
  linux : Bool

/-- The answers to what a function does with one file. -/
structure FileReplies where
  acpEnvGet : AcpRc
  acpFileOpen : AcpRc
  acpFileSeek : AcpRc
  acpFileRead : AcpRc
  acpCStrToInt32 : AcpRc
  acpSnprintf : AcpRc
  /-- One answer to each write. -/
  acpFileWrite : Nat → AcpRc
  acpFileClose : AcpRc

/-- The answers to one call of the library: the shared memory file with the key in it, the log
lines in the order of the source, and the rest. -/
structure Replies where
  shmLog : FileReplies
  sKey : Int
  acpShmAttach : AcpRc
  acpShmDetach : AcpRc
  acpShmCreate : AcpRc
  acpShmDestroy : AcpRc
  created : FileReplies
  logs : Nat → FileReplies
  acpThrGetSelfID : ThreadID
  acpMemAlloc : Nat → AcpRc
  acpSockOpen : Int → AcpRc

/-- `allimPoint`, with the two locks as whether they are held. -/
structure Region where
  point : AllimPoint
  mMemory : Int
  mDisk : Int
  mDesc : Int
  mDestMemory : Int
  mDestPath : Text
  mDestDisk : Int
  mDestDesc : Int
  mLog : Int
  mLogPass : Int
  mLogHit : Int
  mLogLimit : Int
  mLogStack : Int
  mLogSet : Int
  mLogReal : Int
  mLock : Bool
  mLogLock : Bool

/-- The region behind `allimCreate`. -/
def Region.created : Region where
  point := .created
  mMemory := 0
  mDisk := 0
  mDesc := 0
  mDestMemory := 0
  mDestPath := []
  mDestDisk := 0
  mDestDesc := 0
  mLog := 1
  mLogPass := 0
  mLogHit := 1
  mLogLimit := 1
  mLogStack := 1
  mLogSet := 1
  mLogReal := 1
  mLock := false
  mLogLock := false

/-- The static data of a process; of its list of wasted chunks the length. -/
structure Process where
  sOpened : Bool
  gKey : Int
  sChunk : Nat

structure State where
  region : Region
  process : Process

abbrev LibProg := Prog State

/-- A lock that is held is waited for, for ever: nobody else gives it back. -/
def lockLock : LibProg Unit := fun s =>
  if s.region.mLock then .blocked
  else .returned () { s with region := { s.region with mLock := true } }

def unlockLock : LibProg Unit :=
  Prog.update fun s => { s with region := { s.region with mLock := false } }

/-- `ALLIM_LOCK`. -/
def lockLog (aPoint : Bool) : LibProg Unit := fun s =>
  if aPoint then
    if s.region.mLogLock then .blocked
    else .returned () { s with region := { s.region with mLogLock := true } }
  else .returned () s

/-- `ALLIM_UNLOCK`. -/
def unlockLog (aPoint : Bool) : LibProg Unit :=
  Prog.update fun s =>
    if aPoint then { s with region := { s.region with mLogLock := false } } else s

def writeRegion (f : Region → Region) : LibProg Unit :=
  Prog.update fun s => { s with region := f s.region }

def allimCreateLog (r : FileReplies) : LibProg AcpRc :=
  if r.acpEnvGet ≠ .success then pure r.acpEnvGet
  else if r.acpFileOpen ≠ .success then pure r.acpFileOpen
  else pure .success

/-- The log stays open from the first opening on. -/
def allimOpenLog (r : FileReplies) : LibProg AcpRc := do
  let s ← Prog.state
  if s.process.sOpened then pure .success
  else if r.acpEnvGet ≠ .success then pure r.acpEnvGet
  else if r.acpFileOpen ≠ .success then pure r.acpFileOpen
  else do
    Prog.update fun s => { s with process := { s.process with sOpened := true } }
    pure .success

def allimCloseLog : LibProg AcpRc := pure .success

/-- The writes of `allimLogCallstack`: from the given one to the first that fails. -/
def writeAll (r : FileReplies) : List Nat → AcpRc
  | [] => .success
  | i :: is => if r.acpFileWrite i ≠ .success then r.acpFileWrite i else writeAll r is

def allimLogCallstack (pf : Platform) (r : FileReplies) : LibProg AcpRc := do
  let s ← Prog.state
  if s.region.mLogStack ≠ 0 then do
    lockLog true
    let sRC ← allimOpenLog r
    if sRC ≠ .success then do
      -- E_CANNOTOPEN
      unlockLog true
      pure sRC
    -- the test behind the seek leaves without E_CANNOTWRITE
    else if r.acpFileSeek ≠ .success then pure r.acpFileSeek
    -- the message stands in for the call stack where there is none
    else if writeAll r (if pf.linux then [0, 1] else [0, 1, 2]) ≠ .success then do
      -- E_CANNOTWRITE
      unlockLog true
      pure (writeAll r (if pf.linux then [0, 1] else [0, 1, 2]))
    else do
      let _ ← allimCloseLog
      unlockLog true
      pure .success
  else pure .success

/-- `acpSnprintf` answers for the formatting of the line. -/
def allimLogWrite (aPoint : Bool) (r : FileReplies) : LibProg AcpRc :=
  if r.acpSnprintf ≠ .success then pure r.acpSnprintf
  else do
    lockLog aPoint
    let sRC ← allimOpenLog r
    if sRC ≠ .success then do
      -- E_CANNOTOPEN
      unlockLog aPoint
      pure sRC
    -- the test behind the seek leaves without E_CANNOTWRITE
    else if r.acpFileSeek ≠ .success then pure r.acpFileSeek
    else if r.acpFileWrite 0 ≠ .success then do
      -- E_CANNOTWRITE
      unlockLog aPoint
      pure (r.acpFileWrite 0)
    else do
      let sRC ← allimCloseLog
      -- E_CANNOTCLOSE and the normal end
      unlockLog aPoint
      pure sRC

/-- The key comes out of the shared memory file, unless the process knows it. The errors on this
way are logged without the point. -/
def allimGetSharedMemory (r : Replies) : LibProg AcpRc := do
  let s ← Prog.state
  if s.process.gKey = 0 then
    if r.shmLog.acpEnvGet ≠ .success then pure r.shmLog.acpEnvGet
    else if r.shmLog.acpFileOpen ≠ .success then do
      let _ ← allimLogWrite false (r.logs 0)
      pure r.shmLog.acpFileOpen
    else if r.shmLog.acpFileRead ≠ .success then do
      let _ ← allimLogWrite false (r.logs 0)
      pure r.shmLog.acpFileRead
    else if r.shmLog.acpCStrToInt32 ≠ .success then do
      let _ ← allimLogWrite false (r.logs 0)
      pure r.shmLog.acpCStrToInt32
    else do
      Prog.update fun s => { s with process := { s.process with gKey := r.sKey } }
      if r.acpShmAttach ≠ .success then do
        let _ ← allimLogWrite false (r.logs 0)
        pure r.acpShmAttach
      else pure .success
  else if r.acpShmAttach ≠ .success then do
    let _ ← allimLogWrite false (r.logs 0)
    pure r.acpShmAttach
  else pure .success

def allimReleaseSharedMemory (r : Replies) : LibProg AcpRc := pure r.acpShmDetach

def allimIsProceeding (r : Replies) : LibProg Bool := do
  let sRC ← allimGetSharedMemory r
  if sRC ≠ .success then do
    let _ ← allimLogWrite false (r.logs 1)
    pure false
  else do
    let _ ← allimReleaseSharedMemory r
    pure true

/-- The end of `allimCreate`: the key goes to the shared memory file, and the region is detached. -/
def logShm (aKey : Int) (r : Replies) : LibProg AcpRc :=
  if r.shmLog.acpEnvGet ≠ .success then pure r.shmLog.acpEnvGet
  else if r.shmLog.acpFileOpen ≠ .success then pure r.shmLog.acpFileOpen
  else if r.shmLog.acpSnprintf ≠ .success then pure r.shmLog.acpSnprintf
  else if r.shmLog.acpFileWrite 0 ≠ .success then pure (r.shmLog.acpFileWrite 0)
  else if r.shmLog.acpFileClose ≠ .success then pure r.shmLog.acpFileClose
  else if r.acpShmDetach ≠ .success then pure r.acpShmDetach
  else do
    Prog.update fun s => { s with process := { s.process with gKey := aKey } }
    pure .success

def allimCreate (aKey : Int) (r : Replies) : LibProg AcpRc := do
  let sRC ← allimCreateLog r.created
  if sRC ≠ .success then pure sRC
  else if r.acpShmCreate ≠ .success then pure r.acpShmCreate
  else if r.acpShmAttach ≠ .success then pure r.acpShmAttach
  else do
    writeRegion fun _ => .created
    let sRC ← allimCloseLog
    if sRC ≠ .success then pure sRC
    else do
      let sRC ← allimLogWrite true (r.logs 0)
      if sRC ≠ .success then pure sRC else logShm aKey r

def allimDestroy (r : Replies) : LibProg AcpRc :=
  if r.shmLog.acpEnvGet ≠ .success then pure r.shmLog.acpEnvGet
  else if r.shmLog.acpFileOpen ≠ .success then pure r.shmLog.acpFileOpen
  else if r.shmLog.acpFileSeek ≠ .success then pure r.shmLog.acpFileSeek
  else if r.shmLog.acpFileRead ≠ .success then pure r.shmLog.acpFileRead
  else if r.shmLog.acpCStrToInt32 ≠ .success then pure r.shmLog.acpCStrToInt32
  else do
    let sRC ← allimCloseLog
    if sRC ≠ .success then pure sRC
    else if r.acpShmDestroy ≠ .success then pure r.acpShmDestroy
    else pure .success

/-- What every function around the point does: attach the region, take the lock, and give both
back. The body returns `success` or, for `E_NOSPC`, `enospc`, and what it passes out. -/
def withPoint {α : Type} (r : Replies) (unset : α) (body : LibProg (AcpRc × α)) :
    LibProg (AcpRc × α) := do
  let sRC ← allimGetSharedMemory r
  if sRC ≠ .success then pure (sRC, unset)
  else do
    lockLock
    let out ← body
    unlockLock
    let sRC ← allimReleaseSharedMemory r
    if out.1 ≠ .success then pure out else pure (sRC, out.2)

/-- `(void)allimLogWrite(sPoint, ..)` when both flags are set. -/
def logWhen (flag : Region → Int) (r : FileReplies) : LibProg Unit := do
  let s ← Prog.state
  if s.region.mLog ≠ 0 ∧ flag s.region ≠ 0 then do
    let _ ← allimLogWrite true r
    pure ()
  else pure ()

def allimPointSet (pf : Platform) (aFile aID : Text) (aCount aErrNo : Int) (r : Replies) :
    LibProg (AcpRc × Unit) :=
  withPoint r () do
    writeRegion fun m =>
      { m with point := Allim.allimPointSet pf.toAcp m.point aFile aID aCount aErrNo }
    logWhen Region.mLogSet (r.logs 0)
    pure (.success, ())

/-- Passes out the file, the ID, the count and the error number. -/
def allimPointGet (pf : Platform) (r : Replies) :
    LibProg (AcpRc × Option (Text × Text × Int × Int)) :=
  withPoint r none do
    let s ← Prog.state
    let p := s.region.point
    pure (.success, some (pf.strCpy p.mFile pf.pathMaxLength,
      pf.strCpy p.mID limitPointMaxLength, p.mCount, p.mErrNo))

def allimPointClear (r : Replies) : LibProg (AcpRc × Unit) :=
  withPoint r () do
    writeRegion fun m =>
      { m with point := { m.point with mFile := [], mID := [], mCount := 0, mErrNo := 0 } }
    logWhen Region.mLogSet (r.logs 0)
    pure (.success, ())

/-- The log of a point that fires: the errno and the call stack. -/
def logActivated (pf : Platform) (r : Replies) : LibProg Unit := do
  let s ← Prog.state
  if s.region.mLog ≠ 0 ∧ s.region.mLogLimit ≠ 0 then do
    let _ ← allimLogWrite true (r.logs 2)
    let _ ← allimLogCallstack pf (r.logs 3)
    pure ()
  else pure ()

/-- A hit of the point by the thread in slot `i`. -/
def hitPoint (pf : Platform) (i : Fin maxThreads) (r : Replies) :
    LibProg (AcpRc × Int × Bool) := do
  let s ← Prog.state
  let sHitCount := s.region.point.mHitCounts i - 1
  writeRegion fun m => { m with point := m.point.setHitCount i sHitCount }
  logWhen Region.mLogHit (r.logs 1)
  if sHitCount = 0 then do
    logActivated pf r
    let s ← Prog.state
    writeRegion fun m => { m with point := m.point.setHitCount i m.point.mCount }
    pure (.success, s.region.point.mErrNo, true)
  else pure (.success, 0, false)

/-- A pass that goes through slot `i`. -/
def passCompared (pf : Platform) (i : Fin maxThreads) (r : Replies) (p : AllimPoint) :
    Compared → LibProg (AcpRc × Int × Bool)
  | .always => pure (.success, p.mErrNo, true)
  | .other => pure (.success, 0, false)
  | .counted => hitPoint pf i r

/-- A pass behind the scan of the slots. -/
def passScanned (pf : Platform) (aFile aID : Text) (r : Replies) :
    Option (Fin maxThreads) → LibProg (AcpRc × Int × Bool)
  | none => pure (.enospc, 0, false)
  | some i => do
      writeRegion fun m => { m with point := m.point.enter i r.acpThrGetSelfID }
      let s ← Prog.state
      passCompared pf i r s.region.point (s.region.point.compare pf.toAcp aFile aID)

/-- Passes out `*aErrNo` and `*aHit`. -/
def allimPointPass (pf : Platform) (aFile aID : Text) (r : Replies) :
    LibProg (AcpRc × Int × Bool) :=
  withPoint r (0, false) do
    logWhen Region.mLogPass (r.logs 0)
    let s ← Prog.state
    passScanned pf aFile aID r (s.region.point.scan r.acpThrGetSelfID)

def doneScanned : Option (Fin maxThreads) → LibProg (AcpRc × Unit)
  | none => pure (.enospc, ())
  | some i => do
      writeRegion fun m => { m with point := m.point.enter i 0 }
      pure (.success, ())

def allimPointDone (r : Replies) : LibProg (AcpRc × Unit) :=
  withPoint r () do
    let s ← Prog.state
    doneScanned (s.region.point.scan r.acpThrGetSelfID)

/-- The two lines differ in their text. -/
def allimEnableLogging (aLog : Int) (r : Replies) : LibProg (AcpRc × Unit) :=
  withPoint r () do
    writeRegion fun m => { m with mLog := aLog }
    let _ ← allimLogWrite true (r.logs 0)
    pure (.success, ())

/-- Line after line, whatever became of the one before. -/
def logLines : List FileReplies → LibProg Unit
  | [] => pure ()
  | r :: rs => do
      let _ ← allimLogWrite true r
      logLines rs

/-- The log of new settings: a head line and a line for each of the six. -/
def logSettings (r : Replies) : LibProg Unit := do
  let s ← Prog.state
  if s.region.mLog ≠ 0 then logLines ((List.range 7).map r.logs) else pure ()

def allimSetLogging (aLogPass aLogHit aLogLimit aLogStack aLogSet aLogReal : Int) (r : Replies) :
    LibProg (AcpRc × Unit) :=
  withPoint r () do
    writeRegion fun m => { m with
      mLogPass := aLogPass, mLogHit := aLogHit, mLogLimit := aLogLimit, mLogStack := aLogStack,
      mLogSet := aLogSet, mLogReal := aLogReal }
    logSettings r
    pure (.success, ())

/-- Passes out the seven flags. -/
def allimGetLogging (r : Replies) : LibProg (AcpRc × List Int) :=
  withPoint r [] do
    let s ← Prog.state
    let m := s.region
    pure (.success, [m.mLog, m.mLogPass, m.mLogHit, m.mLogLimit, m.mLogStack, m.mLogSet,
      m.mLogReal])

/-- `ALLIM_CHUNKSIZE`. -/
def chunkSize : Int := 1024 * 1024

/-- `sizeof(allimWasteChunk)`, two pointers of 64 bits. -/
def sizeofWasteChunk : Nat := 16

/-- The number of chunks and the bytes counted behind `allimWasteMemory`; `k` allocations have been
tried. -/
def allimWasteMemory (acpMemAlloc : Nat → AcpRc) (aDest : Int) (k sSize sChunk : Nat)
    (aCurrent : Int) : Nat × Int :=
  if aCurrent < aDest ∧ sizeofWasteChunk < sSize then
    match acpMemAlloc k with
    | .enomem => allimWasteMemory acpMemAlloc aDest (k + 1) (sSize / 2) sChunk aCurrent
    | .success =>
        allimWasteMemory acpMemAlloc aDest (k + 1) sSize (sChunk + 1) (aCurrent + chunkSize)
    | _ => (sChunk, aCurrent)
  else (sChunk, aCurrent)
termination_by ((aDest - aCurrent).toNat, sSize)
decreasing_by
  · rename_i h
    exact Prod.Lex.right _ (Nat.div_lt_self (by simp only [sizeofWasteChunk] at h; omega) (by omega))
  · rename_i h
    exact Prod.Lex.left _ _ (by simp only [chunkSize]; omega)

/-- The loop of `allimFreeMemory`: the chunk before the head is freed, and the head when it is the
last; past it the list is not there. -/
def freeChunks (aDest : Int) : Nat → Int → Option (Nat × Int)
  | 0, aCurrent => if aDest < aCurrent then none else some (0, aCurrent)
  | n + 1, aCurrent =>
      if aDest < aCurrent then freeChunks aDest n (aCurrent - chunkSize) else some (n + 1, aCurrent)

def allimFreeMemory (sChunk : Nat) (aCurrent aDest : Int) : Option (Nat × Int) :=
  if sChunk = 0 then some (0, 0) else freeChunks aDest sChunk aCurrent

def allimSetMemoryWaste (aDest : Int) (r : Replies) : LibProg (AcpRc × Unit) :=
  withPoint r () do
    writeRegion fun m => { m with mDestMemory := aDest }
    logWhen Region.mLogReal (r.logs 0)
    pure (.success, ())

def allimGetMemoryWaste (r : Replies) : LibProg (AcpRc × Option (Int × Int)) :=
  withPoint r none do
    let s ← Prog.state
    pure (.success, some (s.region.mDestMemory, s.region.mMemory))

/-- The chunks and the count behind the change of the wasted memory. -/
def changeMemory (r : Replies) (sChunk : Nat) (sCurrent sDest : Int) : Option (Nat × Int) :=
  if sCurrent < sDest then
    some (allimWasteMemory r.acpMemAlloc sDest 0 chunkSize.toNat sChunk sCurrent)
  else allimFreeMemory sChunk sCurrent sDest

/-- What `allimMemory` does with the change. -/
def memoryChanged (r : Replies) : Option (Nat × Int) → LibProg (AcpRc × Unit)
  | none => Prog.fault
  | some (sChunk, sDest) => do
      Prog.update fun s => ⟨{ s.region with mMemory := sDest, mDestMemory := sDest },
        { s.process with sChunk := sChunk }⟩
      logWhen Region.mLogReal (r.logs 0)
      pure (.success, ())

def allimMemory (r : Replies) : LibProg (AcpRc × Unit) :=
  withPoint r () do
    let s ← Prog.state
    if s.region.mDestMemory ≠ s.region.mMemory then
      memoryChanged r (changeMemory r s.process.sChunk s.region.mMemory s.region.mDestMemory)
    else pure (.success, ())

def allimSetDiskWaste (pf : Platform) (aPath : Text) (aDest : Int) (r : Replies) :
    LibProg (AcpRc × Unit) :=
  withPoint r () do
    writeRegion fun m => { m with
      mDestDisk := aDest, mDisk := aDest, mDestPath := pf.strCpy aPath pf.pathMaxLength }
    logWhen Region.mLogReal (r.logs 0)
    pure (.success, ())

def allimGetDiskWaste (pf : Platform) (r : Replies) :
    LibProg (AcpRc × Option (Text × Int × Int)) :=
  withPoint r none do
    let s ← Prog.state
    let m := s.region
    pure (.success, some (pf.strCpy m.mDestPath pf.pathMaxLength, m.mDestDisk, m.mDisk))

/-- Its body is commented out. -/
def allimDisk : LibProg AcpRc := pure .success

/-- `ALLIM_DESCMAX`. -/
def descMax : Int := 65536

/-- `sSocks[i]` is there. -/
def InSocks (i : Int) : Prop := 0 ≤ i ∧ i < descMax

instance (i : Int) : Decidable (InSocks i) := inferInstanceAs (Decidable (_ ∧ _))

/-- The loop that opens `n` sockets from `sCurrent` on, up to the first failure. -/
def openSocks (acpSockOpen : Int → AcpRc) : Nat → Int → Option Int
  | 0, sCurrent => some sCurrent
  | n + 1, sCurrent =>
      if ¬ InSocks sCurrent then none
      else if acpSockOpen sCurrent ≠ .success then some sCurrent
      else openSocks acpSockOpen n (sCurrent + 1)

/-- The loop that closes `n` sockets below `sCurrent`. -/
def closeSocks : Nat → Int → Option Int
  | 0, sCurrent => some sCurrent
  | n + 1, sCurrent => if ¬ InSocks (sCurrent - 1) then none else closeSocks n (sCurrent - 1)

def allimSetDescWaste (aDest : Int) (r : Replies) : LibProg (AcpRc × Unit) :=
  withPoint r () do
    writeRegion fun m => { m with mDestDesc := aDest }
    logWhen Region.mLogReal (r.logs 0)
    pure (.success, ())

def allimGetDescWaste (r : Replies) : LibProg (AcpRc × Option (Int × Int)) :=
  withPoint r none do
    let s ← Prog.state
    pure (.success, some (s.region.mDestDesc, s.region.mDesc))

/-- The number of descriptors behind the change. -/
def changeDesc (r : Replies) (sCurrent sDest : Int) : Option Int :=
  if sCurrent < sDest then openSocks r.acpSockOpen (sDest - sCurrent).toNat sCurrent
  else closeSocks (sCurrent - sDest).toNat sCurrent

/-- What `allimDesc` does with the change. -/
def descChanged (r : Replies) : Option Int → LibProg (AcpRc × Unit)
  | none => Prog.fault
  | some sDest => do
      logWhen Region.mLogReal (r.logs 0)
      writeRegion fun m => { m with mDesc := sDest }
      pure (.success, ())

def allimDesc (r : Replies) : LibProg (AcpRc × Unit) :=
  withPoint r () do
    let s ← Prog.state
    if s.region.mDestDesc ≠ s.region.mDesc then
      descChanged r (changeDesc r s.region.mDesc s.region.mDestDesc)
    else pure (.success, ())

/-- A call of the library with its arguments. -/
inductive Call where
  | createLog
  | openLog
  | closeLog
  | logCallstack
  | logWrite (aPoint : Bool)
  | isProceeding
  | getSharedMemory
  | releaseSharedMemory
  | create (aKey : Int)
  | destroy
  | pointSet (aFile aID : Text) (aCount aErrNo : Int)
  | pointGet
  | pointClear
  | pointPass (aFile aID : Text)
  | pointDone
  | enableLogging (aLog : Int)
  | setLogging (aLogPass aLogHit aLogLimit aLogStack aLogSet aLogReal : Int)
  | getLogging
  | setMemoryWaste (aDest : Int)
  | getMemoryWaste
  | memory
  | setDiskWaste (aPath : Text) (aDest : Int)
  | getDiskWaste
  | disk
  | setDescWaste (aDest : Int)
  | getDescWaste
  | desc

/-- How the call ends, without what it returns. -/
def Call.run (pf : Platform) (r : Replies) : Call → LibProg Unit
  | .createLog => do let _ ← allimCreateLog r.created; pure ()
  | .openLog => do let _ ← allimOpenLog (r.logs 0); pure ()
  | .closeLog => do let _ ← allimCloseLog; pure ()
  | .logCallstack => do let _ ← allimLogCallstack pf (r.logs 0); pure ()
  | .logWrite aPoint => do let _ ← allimLogWrite aPoint (r.logs 0); pure ()
  | .isProceeding => do let _ ← allimIsProceeding r; pure ()
  | .getSharedMemory => do let _ ← allimGetSharedMemory r; pure ()
  | .releaseSharedMemory => do let _ ← allimReleaseSharedMemory r; pure ()
  | .create aKey => do let _ ← allimCreate aKey r; pure ()
  | .destroy => do let _ ← allimDestroy r; pure ()
  | .pointSet aFile aID aCount aErrNo => do
      let _ ← allimPointSet pf aFile aID aCount aErrNo r; pure ()
  | .pointGet => do let _ ← allimPointGet pf r; pure ()
  | .pointClear => do let _ ← allimPointClear r; pure ()
  | .pointPass aFile aID => do let _ ← allimPointPass pf aFile aID r; pure ()
  | .pointDone => do let _ ← allimPointDone r; pure ()
  | .enableLogging aLog => do let _ ← allimEnableLogging aLog r; pure ()
  | .setLogging aLogPass aLogHit aLogLimit aLogStack aLogSet aLogReal => do
      let _ ← allimSetLogging aLogPass aLogHit aLogLimit aLogStack aLogSet aLogReal r; pure ()
  | .getLogging => do let _ ← allimGetLogging r; pure ()
  | .setMemoryWaste aDest => do let _ ← allimSetMemoryWaste aDest r; pure ()
  | .getMemoryWaste => do let _ ← allimGetMemoryWaste r; pure ()
  | .memory => do let _ ← allimMemory r; pure ()
  | .setDiskWaste aPath aDest => do let _ ← allimSetDiskWaste pf aPath aDest r; pure ()
  | .getDiskWaste => do let _ ← allimGetDiskWaste pf r; pure ()
  | .disk => do let _ ← allimDisk; pure ()
  | .setDescWaste aDest => do let _ ← allimSetDescWaste aDest r; pure ()
  | .getDescWaste => do let _ ← allimGetDescWaste r; pure ()
  | .desc => do let _ ← allimDesc r; pure ()

end Natc.Allim.Shared
