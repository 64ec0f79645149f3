import Natc.Agent.Target

/-!
# The host

The operations of the host on a connection to a target agent. An operation ends when its function
returns; its result is part of the last label.
-/

namespace Natc.Agent

open Lib

/-- The answers of the operating system of the host. -/
structure HostOs where
  malloc : Bool
  opens : Bool
  writes : Nat → WriteOutcome

section Put

/-- The places where `putOpt` waits. -/
inductive PutOpt where
  | reply (content : Bytes) (sFileSize : Int)
  | last
  | more (rest : Bytes) (sFileSize : Int)
  | returned (sRc : Opt)
  deriving DecidableEq

/-- One round of the loop of `putOpt`, up to the reply of the target. -/
def putRead (sType : Int) (rest : Bytes) (sFileSize : Int) : Code UInt8 PutOpt :=
  let sBuf := rest.take MAX_BUF_SIZE
  let sFileSize := sFileSize - sBuf.length
  .send (Header.bytes ⟨sType, sBuf.length⟩) <|
    if sBuf = [] then .await (.more rest sFileSize)
    else
      .send sBuf <| .await <|
        if sFileSize ≤ 0 then .last else .more (rest.drop MAX_BUF_SIZE) sFileSize

def PutOpt.recv : PutOpt → Option (Int × (Bytes → Code UInt8 PutOpt))
  | .reply content sFileSize =>
      some (sizeofHeader, fun sHeader =>
        if (Header.ofBytes sHeader).type = Opt.FAILURE.code then .await (.returned .FAILURE)
        else if sFileSize = 0 then .await (.returned .SUCCESS)
        else putRead Opt.SUCCESS.code content sFileSize)
  -- the reply to the last message is not looked at
  | .last => some (sizeofHeader, fun _ => .await (.returned .SUCCESS))
  | .more rest sFileSize =>
      some (sizeofHeader, fun sHeader =>
        let sType := (Header.ofBytes sHeader).type
        if sType = Opt.FAILURE.code then .await (.returned .FAILURE)
        else putRead sType rest sFileSize)
  | .returned _ => none

abbrev putHost : Peer UInt8 := ⟨PutOpt, PutOpt.recv⟩

/-- `putOpt` for a local file and the path on the target. -/
def putOpt (os : HostOs) (content : Bytes) (name : CharArray) : Code UInt8 PutOpt :=
  if !os.malloc || !os.opens then .await (.returned .FAILURE)
  else
    let sFileSize := toInt32 content.length
    .send (Header.bytes ⟨Opt.PUT.code, sizeofFileInfo⟩) <|
      .send (FileInfo.bytes ⟨name, sFileSize⟩) (.await (.reply content sFileSize))

end Put

section Get

/-- The places where `getOpt` waits, with the local file. -/
inductive GetOpt where
  | reply
  | info (n : Int)
  | empty
  | size (sFile : Bytes) (sFileSize : Int) (i : Nat)
  | data (sFile : Bytes) (sFileSize : Int) (i : Nat) (sHeader : Bytes)
  | final (sFile : Bytes)
  | returned (sRc : Opt) (sFile : Option Bytes)
  deriving DecidableEq

/-- One round of the loop of `getOpt`, from the data on. -/
def getData (os : HostOs) (sFile : Bytes) (sFileSize : Int) (i : Nat) (sHeader sBuf : Bytes) :
    Code UInt8 GetOpt :=
  if sBuf = [] then .await (.returned .FAILURE (some sFile))
  else
    let (sFileLen, data) := write sBuf sBuf.length (os.writes i)
    let sFileSize := sFileSize - sFileLen
    .send sHeader <| .await <|
      if sFileSize ≤ 0 then .final (sFile ++ data) else .size (sFile ++ data) sFileSize (i + 1)

def GetOpt.recv (os : HostOs) : GetOpt → Option (Int × (Bytes → Code UInt8 GetOpt))
  | .reply =>
      some (sizeofHeader, fun sHeader =>
        if (Header.ofBytes sHeader).type = Opt.FAILURE.code then
          .await (.returned .FAILURE (some []))
        else .await (.info (Header.ofBytes sHeader).size))
  | .info n =>
      some (n, fun sFileInfo =>
        let sFileSize := fileInfoSize sFileInfo
        .await (if sFileSize = 0 then .empty else .size [] sFileSize 0))
  | .empty => some (sizeofHeader, fun _ => .await (.returned .SUCCESS (some [])))
  | .size sFile sFileSize i =>
      some (sizeofHeader, fun sHeader => .await (.data sFile sFileSize i sHeader))
  | .data sFile sFileSize i sHeader =>
      some ((Header.ofBytes sHeader).size, getData os sFile sFileSize i sHeader)
  | .final sFile => some (sizeofHeader, fun _ => .await (.returned .SUCCESS (some sFile)))
  | .returned _ _ => none

abbrev getHost (os : HostOs) : Peer UInt8 := ⟨GetOpt, GetOpt.recv os⟩

/-- `getOpt` for a path on the target; `before` is what the local file was. -/
def getOpt (os : HostOs) (before : Option Bytes) (aFilePath : CharArray) : Code UInt8 GetOpt :=
  if !os.malloc || !os.opens then .await (.returned .FAILURE before)
  else
    .send (Header.bytes ⟨Opt.GET.code, sizeofPathName⟩) <| .send aFilePath.bytes (.await .reply)

end Get

section Ask

/-- The places of the operations with one request and one reply. -/
inductive AskOpt where
  | reply
  | returned (sRc : Opt)
  deriving DecidableEq

def AskOpt.recv : AskOpt → Option (Int × (Bytes → Code UInt8 AskOpt))
  | .reply =>
      some (sizeofHeader, fun sHeader =>
        .await (.returned (if (Header.ofBytes sHeader).type = Opt.SUCCESS.code then .SUCCESS
          else .FAILURE)))
  | .returned _ => none

abbrev askHost : Peer UInt8 := ⟨AskOpt, AskOpt.recv⟩

def ask (type : Opt) (size : Int) (body : Bytes) : Code UInt8 AskOpt :=
  .send (Header.bytes ⟨type.code, size⟩) <| .send body (.await .reply)

/-- The requests that `handleFile` answers. -/
inductive FileOpt where
  | mkdir
  | rmdir
  | deleteFile
  deriving DecidableEq

def FileOpt.opt : FileOpt → Opt
  | .mkdir => .MKDIR
  | .rmdir => .RMDIR
  | .deleteFile => .DELETEFILE

def manageOpt (aOption : FileOpt) (aName : CharArray) : Code UInt8 AskOpt :=
  ask aOption.opt sizeofPathName aName.bytes

def copyOpt (srcName destName : CharArray) : Code UInt8 AskOpt :=
  ask .COPY sizeofCopyFile (srcName.bytes ++ destName.bytes)

end Ask

/-- Both peers are at the start of a request and no byte is unread. -/
structure AtRest {p : Peer UInt8} {os : TargetOs} (c : Link p (target os)) : Prop where
  request : ∃ files, c.right = waitAt files .request
  toTarget : c.toRight = []
  toHost : c.toLeft = []

/-- The file operations of the host. -/
inductive Operation where
  | put (os : HostOs) (content : Bytes) (name : CharArray)
  | get (os : HostOs) (before : Option Bytes) (aFilePath : CharArray)
  | copy (srcName destName : CharArray)
  | manage (aOption : FileOpt) (aName : CharArray)

namespace Operation

/-- The host during the operation. -/
def host : Operation → Peer UInt8
  | put _ _ _ => putHost
  | get os _ _ => getHost os
  | copy _ _ => askHost
  | manage _ _ => askHost

def start : (op : Operation) → Code UInt8 op.host.Label
  | put os content name => putOpt os content name
  | get os before aFilePath => getOpt os before aFilePath
  | copy srcName destName => copyOpt srcName destName
  | manage aOption aName => manageOpt aOption aName

/-- The operation starts on a connection at rest. -/
def link (op : Operation) (os : TargetOs) (files : Files) : Link op.host (target os) :=
  ⟨op.start, waitAt files .request, [], []⟩

end Operation

section Rest

open Link

variable {p : Peer UInt8} {os : TargetOs} {files : Files}

/-- The connection behind an operation that leaves it at rest. -/
def restLink (l : p.Label) (os : TargetOs) (files : Files) : Link p (target os) :=
  ⟨.await l, waitAt files .request, [], []⟩

theorem atRest_restLink (l : p.Label) : AtRest (restLink l os files) := ⟨⟨files, rfl⟩, rfl, rfl⟩

theorem quiescent_restLink {l : p.Label} (hend : p.recv l = none) :
    Quiescent (restLink l os files) := by
  refine quiescent_of_blocked (fun n k h => ?_) fun n k h => ?_
  · rw [hend] at h
    cases h
  · cases h
    exact .inr (by decide)

/-- The target's last header ends the operation. -/
theorem answered_reply {l l' : p.Label} {k : Bytes → Code UInt8 p.Label} (type : Opt)
    (hrecv : p.recv l = some (sizeofHeader, k)) (hk : k (Header.bytes ⟨type.code, 0⟩) = .await l') :
    Answered (restLink l' os files)
      ⟨.await l, reply type (waitAt files .request), [], []⟩ := by
  refine answered_message hrecv rfl (by simp [Header.bytes, htonl]) ?_
  rw [hk]
  exact .refl

theorem settles_restLink {c : Link p (target os)} {l : p.Label} (hend : p.recv l = none)
    (h : Answered (restLink l os files) c) : Settles c (restLink l os files) :=
  .of_answered h (quiescent_restLink hend) rfl

end Rest

end Natc.Agent
