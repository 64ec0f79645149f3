import Natc.Agent.Wire
import Natc.Lib.Duplex

/-!
# The target agent

`tagent` answers the requests of one host, one after the other. What its operating system answers
during an operation is a parameter; the connection is reliable while it lasts.
-/

namespace Natc.Agent

open Lib

/-- The course of a `read`. The file may have been cut since its size was taken. -/
inductive ReadOutcome where
  | full
  | short (k : Nat)
  | ended
  | error
  deriving DecidableEq, Repr

/-- `read( sFd, sBuf, size )` in front of `rest`; `none` is the result -1. -/
def read (size : Nat) (rest : Bytes) : ReadOutcome → Option Bytes
  | .full => some (rest.take size)
  | .short k => some (rest.take (min (k + 1) size))
  | .ended => some []
  | .error => none

inductive WriteOutcome where
  | full
  | short (k : Nat)
  | error
  deriving DecidableEq, Repr

/-- `write( sFd, sBuf, count )`: its result and the bytes that reach the file. -/
def write (sBuf : Bytes) (count : Int) (o : WriteOutcome) : Int × Bytes :=
  if count < 0 then (-1, [])
  else
    match o with
    | .full => (count, sBuf.take count.toNat)
    | .short k => ((min k (count.toNat - 1) : Nat), sBuf.take (min k (count.toNat - 1)))
    | .error => (-1, [])

/-- The answers of the operating system of the target. -/
structure TargetOs where
  malloc : Bool
  opensRead : Bytes → Bool
  opensWrite : Bytes → Bool
  reads : Nat → ReadOutcome
  writes : Nat → WriteOutcome
  /-- `mkdir`, `rmdir` and `remove`. -/
  manages : Opt → Bytes → Bool

/-- The files of the target by their names. -/
abbrev Files := Bytes → Option Bytes

def Files.set (files : Files) (name : Bytes) (content : Option Bytes) : Files :=
  fun n => if n = name then content else files n

/-- `O_CREAT | O_TRUNC`. -/
def Files.create (files : Files) (name : Bytes) : Files := files.set name (some [])

def Files.append (files : Files) (name : Bytes) (bs : Bytes) : Files :=
  files.set name ((files name).map (· ++ bs))

/-- The places where the target waits. -/
inductive TargetPc where
  | request
  | handleFile (opt : Opt)
  | copyFile
  | getFile
  | getReply (rest : Bytes) (sFileSize : Int) (i sFileLen : Nat)
  | putFile
  | putHeader (name : Bytes) (sFileSize : Int) (i : Nat)
  | putData (name : Bytes) (sFileSize : Int) (i : Nat) (sFileLen : Int)
  | execute
  | closed
  deriving DecidableEq

structure Target where
  files : Files
  pc : TargetPc

/-- The target waits at a place. -/
abbrev waitAt (files : Files) (pc : TargetPc) : Code UInt8 Target := .await ⟨files, pc⟩

/-- A header without a body. -/
def reply {ι : Type} (type : Opt) (next : Code UInt8 ι) : Code UInt8 ι :=
  .send (Header.bytes ⟨type.code, 0⟩) next

variable (os : TargetOs) (files : Files)

def handleFile (opt : Opt) (sPath : Bytes) : Code UInt8 Target :=
  let name := cString sPath
  if os.manages opt name then
    reply .SUCCESS (waitAt (if opt = .DELETEFILE then files.set name none else files) .request)
  else reply .FAILURE (waitAt files .request)

theorem length_read_le (size : Nat) (rest : Bytes) (o : ReadOutcome) :
    ((read size rest o).getD []).length ≤ rest.length := by
  cases o with
  | full | short k => exact List.length_take_le' _ rest
  | ended | error => exact Nat.zero_le _

/-- The loop of `copyFile`: the bytes that reach the copy. -/
def copyData (rest : Bytes) (i : Nat) : Bytes :=
  let sBuf := (read BUF_SIZE rest (os.reads i)).getD []
  if sBuf = [] then []
  else (write sBuf sBuf.length (os.writes i)).2 ++ copyData (rest.drop sBuf.length) (i + 1)
termination_by rest.length
decreasing_by
  rename_i h
  have hle := length_read_le BUF_SIZE rest (os.reads i)
  have hpos : 0 < ((read BUF_SIZE rest (os.reads i)).getD []).length :=
    List.length_pos_iff.mpr h
  rw [List.length_drop]
  omega

def copyFile (SCopyFile : Bytes) : Code UInt8 Target :=
  let srcName := cString (SCopyFile.take 1024)
  let destName := cString (SCopyFile.drop 1024)
  if !os.malloc then reply .FAILURE (waitAt files .request)
  else if !(os.opensRead srcName && (files srcName).isSome) then
    reply .FAILURE (waitAt files .request)
  else if !os.opensWrite destName then reply .FAILURE (waitAt files .request)
  else
    let files := files.create destName
    let data := copyData os ((files srcName).getD []) 0
    reply .SUCCESS (waitAt (files.append destName data) .request)

/-- One round of the loop of `getFile`, up to the reply of the host. -/
def getRead (rest : Bytes) (sFileSize : Int) (i : Nat) : Code UInt8 Target :=
  match read MAX_BUF_SIZE rest (os.reads i) with
  | none => waitAt files .request
  | some sBuf =>
      .send (Header.bytes ⟨Opt.SUCCESS.code, sBuf.length⟩) <| .send sBuf <|
        waitAt files (.getReply (rest.drop sBuf.length) sFileSize i sBuf.length)

def getReply (rest : Bytes) (sFileSize : Int) (i sFileLen : Nat) (sHeader : Bytes) :
    Code UInt8 Target :=
  if (Header.ofBytes sHeader).type = Opt.FAILURE.code then .send sHeader (waitAt files .request)
  else if sFileSize - sFileLen ≤ 0 then reply .SUCCESS (waitAt files .request)
  else getRead os files rest (sFileSize - sFileLen) (i + 1)

def getFile (sPath : Bytes) : Code UInt8 Target :=
  let sFileName := cString sPath
  if !os.malloc then reply .FAILURE (waitAt files .request)
  else
    match if os.opensRead sFileName then files sFileName else none with
    | none => reply .FAILURE (waitAt files .request)
    | some content =>
        let sFileSize := toInt32 content.length
        .send (Header.bytes ⟨Opt.SUCCESS.code, sizeofFileInfo⟩) <|
          .send (sPath ++ htonl sFileSize) <|
            if sFileSize = 0 then reply .SUCCESS (waitAt files .request)
            else getRead os files content sFileSize 0

/-- `putFile` up to its loop. -/
def putFile (sFileInfo : Bytes) : Code UInt8 Target :=
  let sFileSize := fileInfoSize sFileInfo
  let name := cString (sFileInfo.take 1024)
  if !os.malloc then reply .FAILURE (waitAt files .request)
  else if !os.opensWrite name then reply .FAILURE (waitAt files .request)
  else
    let files := files.create name
    if sFileSize = 0 then reply .SUCCESS (waitAt files .request)
    else reply .SUCCESS (waitAt files (.putHeader name sFileSize 0))

def putError : CharArray where
  chars := "put error".toList.map fun c => UInt8.ofNat c.toNat
  noNul := by decide +kernel
  fits := by decide +kernel

/-- One round of the loop of `putFile`, from the data on. -/
def putData (name : Bytes) (sFileSize : Int) (i : Nat) (sBuf : Bytes) : Code UInt8 Target :=
  if sBuf = [] then waitAt files .request
  else
    let count := if sFileSize < sBuf.length then sFileSize else sBuf.length
    let (sFileLen, data) := write sBuf count (os.writes i)
    let files := files.append name data
    let sFileSize := sFileSize - sFileLen
    if sFileSize ≤ 0 then reply .SUCCESS (waitAt files .request)
    else if sFileLen = -1 then
      .send (Header.bytes ⟨Opt.FAILURE.code, sizeofMessage⟩) <|
        .send putError.bytes (waitAt files .request)
    else reply .SUCCESS (waitAt files (.putHeader name sFileSize (i + 1)))

/-- The switch of `main`. `EXECUTE` leaves the file operations. -/
def request (sHeader : Bytes) : Code UInt8 Target :=
  match Opt.ofCode? (Header.ofBytes sHeader).type with
  | some .EXECUTE => waitAt files .execute
  | some .SERVER => waitAt files .request
  | some .PUT => waitAt files .putFile
  | some .GET => waitAt files .getFile
  | some .MKDIR => waitAt files (.handleFile .MKDIR)
  | some .RMDIR => waitAt files (.handleFile .RMDIR)
  | some .DELETEFILE => waitAt files (.handleFile .DELETEFILE)
  | some .COPY => waitAt files .copyFile
  | some .QUIT => reply .QUIT (waitAt files .closed)
  | some .TERMINATE => reply .TERMINATE (waitAt files .closed)
  | _ => reply .FAILURE (waitAt files .request)

/-- What the target waits for, and how it goes on. -/
def Target.recv : Target → Option (Int × (Bytes → Code UInt8 Target))
  | ⟨files, .request⟩ => some (sizeofHeader, request files)
  | ⟨files, .handleFile opt⟩ => some (sizeofPathName, handleFile os files opt)
  | ⟨files, .copyFile⟩ => some (sizeofCopyFile, copyFile os files)
  | ⟨files, .getFile⟩ => some (sizeofPathName, getFile os files)
  | ⟨files, .getReply rest sFileSize i sFileLen⟩ =>
      some (sizeofHeader, getReply os files rest sFileSize i sFileLen)
  | ⟨files, .putFile⟩ => some (sizeofFileInfo, putFile os files)
  | ⟨files, .putHeader name sFileSize i⟩ =>
      some (sizeofHeader, fun sHeader =>
        waitAt files (.putData name sFileSize i (Header.ofBytes sHeader).size))
  | ⟨files, .putData name sFileSize i sFileLen⟩ =>
      some (sFileLen, putData os files name sFileSize i)
  | ⟨_, .execute⟩ => none
  | ⟨_, .closed⟩ => none

abbrev target : Peer UInt8 := ⟨Target, Target.recv os⟩

end Natc.Agent
