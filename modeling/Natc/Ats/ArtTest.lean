import Natc.Ats.ParseTable
import Natc.Lib.Machine

/-!
# Laborers of the recovery tests

In the recovery tests a laborer runs each of its queries through `executeArtTest`, which looks for
connection errors in the result, finds out from the boot log why the server is gone, and starts it
again. The flags `mIsHit`, `mIsCrash` and `mIsArtRestart` belong to the service thread and are
shared by all laborers.
-/

namespace Natc.Ats

open Lib

/-- Where a laborer stands in `executeArtTest` and the functions it calls. -/
inductive ArtPc where
  | runReal    -- between two queries
  | restarted  -- the restart flag was set: `logon`
  | unclean    -- `P0`, no logon after the restart: `cleanServer`, up to the start of the server
  | cleaned    -- `cleanServer`: `setCrash`
  | relogon    -- the second `logon` after a restart
  | release    -- `P0`: `setArtRestart( ID_FALSE )`
  | plain      -- the restart flag was not set: `logon`
  | executing  -- until the result of the query is there
  | lost       -- a connection error in the result: the assertion
  | retrying   -- `retryExecution4ART`: `logon`
  | checking   -- `checkServer`: the last line of the boot log
  | starting   -- `checkServer`: `server start`
  | raising    -- `doCheckServer4ART`: `setArtRestart( ID_TRUE )`
  | bugKill    -- `doCheckServer4ART`: `logon` after a bug
  | ended      -- `executeArtTest` failed, and the laborer with it
  | aborted    -- the assertion failed
  deriving DecidableEq, Repr

/-- From a connection error on until the server is started again and the flag is set. -/
def ArtPc.handling : ArtPc → Bool
  | .lost | .retrying | .checking | .starting | .raising => true
  | _ => false

structure ArtLaborer where
  pc : ArtPc
  mLogon : Bool
  mQuery : List QueryData
  query : QueryData
  queryRecPtr : QueryData

/-- What a laborer made of a death of the server: the number of the death, and whether it was a
hit. -/
structure ArtVerdict where
  death : Nat
  hit : Bool
  deriving DecidableEq, Repr

/-- The service thread with its laborers, and the server: whether it runs, whether the last line of
its boot log is a recovery-point kill, and that line at each of its deaths so far. -/
structure ArtServicer (ι : Type*) where
  laborer : ι → ArtLaborer
  mIsHit : Bool
  mIsCrash : Bool
  mIsArtRestart : Bool
  up : Bool
  bootLog : Bool
  deaths : List Bool
  /-- The results of `checkServer`. -/
  verdicts : List ArtVerdict
  /-- The last death before each start of the server by a laborer. -/
  starts : List Nat
  /-- The last death before each failed logon of `retryExecution4ART`. -/
  noticed : List Nat

/-- The server dies or is started from outside, a command is handed to a laborer, or a laborer
goes on; `found` says whether the result of its query contains a connection error. -/
inductive ArtStep (ι : Type*)
  | die (kill : Bool)
  | restart
  | push (i : ι) (q : QueryData)
  | run (i : ι) (found : Bool)

namespace ArtServicer

variable {ι : Type*} [DecidableEq ι]

def set (s : ArtServicer ι) (i : ι) (l : ArtLaborer) : ArtServicer ι :=
  { s with laborer := Function.update s.laborer i l }

/-- Laborer `i` runs `server start` and goes on at `pc`. -/
def startBy (s : ArtServicer ι) (i : ι) (pc : ArtPc) : ArtServicer ι :=
  { s with
    up := true
    bootLog := false
    starts := s.deaths.length :: s.starts }.set i { s.laborer i with pc := pc }

/-- `Laborer::logon`: only the first call connects, later ones succeed at once. -/
def logon (s : ArtServicer ι) (i : ι) : Bool :=
  (s.laborer i).mLogon || s.up

/-- `Laborer::checkServer` up to the start of the server. -/
def checkServer (s : ArtServicer ι) (i : ι) : ArtServicer ι :=
  { s with
    mIsHit := s.mIsHit || s.bootLog
    verdicts := ⟨s.deaths.length, s.bootLog⟩ :: s.verdicts }.set i
      { s.laborer i with pc := if s.bootLog then .starting else .bugKill }

/-- A laborer takes its next query and looks at the restart flag. -/
def take (s : ArtServicer ι) (i : ι) (q : QueryData) (rest : List QueryData) : ArtServicer ι :=
  let l := s.laborer i
  s.set i { l with
    pc := if s.mIsArtRestart then .restarted else .plain
    mQuery := rest
    query := q
    queryRecPtr := if q.type = .recpointCom then q else l.queryRecPtr }

/-- `Laborer::doCheckServer4ART` after the server was started again. -/
def raise (kind : ATSTestKind) (s : ArtServicer ι) (i : ι) : ArtServicer ι :=
  let l := s.laborer i
  { s with mIsArtRestart := true }.set i { l with
    pc := .runReal
    mLogon := false
    mQuery := if kind = ATSTestKind.full then l.queryRecPtr :: l.mQuery else l.mQuery }

/-- `Laborer::executeArtTest`, `retryExecution4ART`, `doCheckServer4ART`, `checkServer` and
`cleanServer`, from one access to shared state to the next. -/
def run (kind : ATSTestKind) (p0 : ι) (s : ArtServicer ι) (i : ι) (found : Bool) :
    Option (ArtServicer ι) :=
  let l := s.laborer i
  match l.pc with
  | .runReal => l.mQuery.head?.map fun q => s.take i q l.mQuery.tail
  | .restarted =>
    let next := if i = p0 then .release else .executing
    let failed := if i = p0 then .unclean else .relogon
    some (s.set i { l with mLogon := true, pc := if s.logon i then next else failed })
  | .unclean => some (s.startBy i .cleaned)
  | .cleaned => some ({ s with mIsCrash := true }.set i { l with mLogon := false, pc := .relogon })
  | .relogon =>
    let next := if i = p0 then .release else .executing
    some (s.set i { l with mLogon := true, pc := if s.logon i then next else .ended })
  | .release => some ({ s with mIsArtRestart := false }.set i { l with pc := .executing })
  | .plain =>
    -- a recovery-point command goes on without a server
    let goesOn := s.logon i || decide (l.query.type = .recpointCom)
    some (s.set i { l with mLogon := true, pc := if goesOn then .executing else .ended })
  | .executing => some (s.set i { l with pc := if found then .lost else .runReal })
  | .lost => some (s.set i { l with pc := if s.mIsArtRestart then .aborted else .retrying })
  | .retrying =>
    if s.up then some (s.set i { l with pc := .runReal })
    else some ({ s with noticed := s.deaths.length :: s.noticed }.set i { l with pc := .checking })
  | .checking => some (s.checkServer i)
  | .starting => some (s.startBy i .raising)
  | .raising => some (s.raise kind i)
  | .bugKill =>
    let goesOn := decide (l.query.type = .recpointCom) || s.up
    some (s.set i { l with pc := if goesOn then .runReal else .ended })
  | .ended | .aborted => none

def step (kind : ATSTestKind) (p0 : ι) (s : ArtServicer ι) : ArtStep ι → Option (ArtServicer ι)
  | .die kill =>
    if s.up then some { s with up := false, bootLog := kill, deaths := s.deaths ++ [kill] }
    else none
  | .restart => if s.up then none else some { s with up := true, bootLog := false }
  | .push i q =>
    some (s.set i { s.laborer i with mQuery := (s.laborer i).mQuery ++ [q] })
  | .run i found => run kind p0 s i found

/-- A laborer before its first query. -/
def idle : ArtLaborer := ⟨.runReal, false, [], .fresh, .fresh⟩

/-- A recovery test begins with a running server and no flag set. -/
def machine (kind : ATSTestKind) (p0 : ι) : Machine (ArtServicer ι) (ArtStep ι) where
  start := ⟨fun _ => idle, false, false, false, true, false, [], [], [], []⟩
  step := step kind p0

end ArtServicer

end Natc.Ats
