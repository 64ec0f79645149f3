import Natc.Agent.Execute
import Natc.Agent.Host

/-!
# The output of `EXECUTE`

The target sends what the command writes in messages of at most 1024 bytes, each of which the host
answers, and then a last header. The loop of the host ends with that header; its type is not looked
at.
-/

namespace Natc.Agent

open Lib Lib.Link

/-- A `read` of the pipe that gave something. -/
structure PipeRead where
  bytes : Bytes
  pos : 0 < bytes.length
  fits : bytes.length ≤ 1024

/-- What the target sends for a request: the messages and the type of the last header. -/
structure Answer where
  output : List PipeRead
  sType : Int
  last : toInt32 sType ≠ Opt.MESSAGE.code

/-- The `returnOption` of a request, in the order of the host. -/
def returnOptionOf (sExecute : Bytes) : Int := ntohl ((sExecute.drop returnOptionAt).take 4).reverse

section Target

/-- The answers of the operating system of the target, with what it reads from the pipe. -/
structure ExecuteOs where
  malloc : Bool
  pipe : Bool
  fork : Bool
  output : List PipeRead

/-- `executeOpt` of the target. -/
def ExecuteOs.answer (os : ExecuteOs) (sExecute : Bytes) : Answer :=
  if !os.malloc || !os.pipe || !os.fork then ⟨[], Opt.FAILURE.code, by decide⟩
  else ⟨if 0 < returnOptionOf sExecute then os.output else [], Opt.SUCCESS.code, by decide⟩

inductive ExecutePc where
  | request
  /-- The other cases of the switch of `main`. -/
  | other
  | execute
  | reply (rest : List PipeRead) (sType : Int)
  | returned (sType : Int)

/-- The loop over the pipe, up to the reply of the host, and the last header. -/
def sendOutput (sType : Int) : List PipeRead → Code UInt8 ExecutePc
  | [] => .send (Header.bytes ⟨sType, 0⟩) (.await (.returned sType))
  | sBuf :: rest =>
      .send (Header.bytes ⟨Opt.MESSAGE.code, sBuf.bytes.length⟩) <|
        .send sBuf.bytes (.await (.reply rest sType))

def ExecutePc.recv (answer : Bytes → Answer) :
    ExecutePc → Option (Int × (Bytes → Code UInt8 ExecutePc))
  | .request =>
      some (sizeofHeader, fun sHeader =>
        .await (if (Header.ofBytes sHeader).type = Opt.EXECUTE.code then .execute else .other))
  | .other => none
  | .execute =>
      some (sizeofExecute, fun sExecute =>
        sendOutput (answer sExecute).sType (answer sExecute).output)
  -- the reply to a message is not looked at
  | .reply rest sType => some (sizeofHeader, fun _ => sendOutput sType rest)
  | .returned _ => none

abbrev executePeer (answer : Bytes → Answer) : Peer UInt8 := ⟨ExecutePc, ExecutePc.recv answer⟩

end Target

section Host

def RSYSTEM_BUFFER_SIZE : Nat := 32768

def messagePrint (aMessage aRsysBuf : Bytes) : Bytes :=
  if aMessage.length + aRsysBuf.length < RSYSTEM_BUFFER_SIZE then aRsysBuf ++ aMessage
  else aRsysBuf

/-- The places where `executeOpt` waits, with the request and what is printed. -/
inductive ExecuteOpt where
  | reply (sExecute : ExecuteMem) (aRsysBuf : Bytes)
  | message (sExecute : ExecuteMem) (size : Int) (aRsysBuf : Bytes)
  | next (sExecute : ExecuteMem) (aRsysBuf : Bytes)
  | overrun
  | returned (sRc : Opt) (aRsysBuf : Bytes)

/-- The empty line around the output. -/
def printBreak (sExecute : ExecuteMem) (aRsysBuf : Bytes) : Bytes :=
  if 0 < returnOptionOf sExecute.bytes then messagePrint [10] aRsysBuf else aRsysBuf

/-- The condition of the loop, and what follows the loop. -/
def afterHeader (sExecute : ExecuteMem) (aRsysBuf sHeader : Bytes) : Code UInt8 ExecuteOpt :=
  if (Header.ofBytes sHeader).type = Opt.MESSAGE.code then
    .await (.message sExecute (Header.ofBytes sHeader).size aRsysBuf)
  else .await (.returned .SUCCESS (printBreak sExecute aRsysBuf))

def ExecuteOpt.recv : ExecuteOpt → Option (Int × (Bytes → Code UInt8 ExecuteOpt))
  | .reply sExecute aRsysBuf =>
      some (sizeofHeader, afterHeader sExecute (printBreak sExecute aRsysBuf))
  | .message sExecute size aRsysBuf =>
      some (size, fun sMessage =>
        -- `sMessage` has 1024 + 1 characters
        if 1024 < sMessage.length then .await .overrun
        else
          .send (Header.bytes ⟨Opt.SUCCESS.code, 0⟩) <|
            .await (.next sExecute (messagePrint (cString sMessage) aRsysBuf)))
  | .next sExecute aRsysBuf => some (sizeofHeader, afterHeader sExecute aRsysBuf)
  | .overrun => none
  | .returned _ _ => none

abbrev executeHost : Peer UInt8 := ⟨ExecuteOpt, ExecuteOpt.recv⟩

/-- `executeOpt` from the request on. -/
def executeRun (aRsysBuf : Bytes) : ExecuteResult → Code UInt8 ExecuteOpt
  | .undefined => .await .overrun
  | .failure => .await (.returned .FAILURE aRsysBuf)
  | .unsent => .await (.returned .SUCCESS aRsysBuf)
  | .sent sExecute =>
      .send (Header.bytes ⟨Opt.EXECUTE.code, sizeofExecute⟩) <|
        .send sExecute.bytes (.await (.reply sExecute aRsysBuf))

end Host

/-- The operation starts on a connection at rest. -/
def executeLink (answer : Bytes → Answer) (aRsysBuf : Bytes) (result : ExecuteResult) :
    Link executeHost (executePeer answer) :=
  ⟨executeRun aRsysBuf result, .await .request, [], []⟩

/-- Wherever the host has returned `SUCCESS`, the last header of the target was of that type. -/
def Sound {answer : Bytes → Answer} (c : Link executeHost (executePeer answer)) : Prop :=
  ∀ d aRsysBuf, Reach c d → d.left = .await (ExecuteOpt.returned .SUCCESS aRsysBuf) →
    ∃ sType, d.right = .await (ExecutePc.returned sType) ∧ toInt32 sType = Opt.SUCCESS.code

section Run

variable {answer : Bytes → Answer} {sExecute : ExecuteMem} {aRsysBuf : Bytes} {sType : Int}

/-- What is printed of the messages. -/
def printOutput (aRsysBuf : Bytes) (output : List PipeRead) : Bytes :=
  output.foldl (fun aRsysBuf sBuf => messagePrint (cString sBuf.bytes) aRsysBuf) aRsysBuf

/-- The end of every run: the host returns `SUCCESS`. -/
def finished (answer : Bytes → Answer) (aRsysBuf : Bytes) (sType : Int) :
    Link executeHost (executePeer answer) :=
  ⟨.await (ExecuteOpt.returned .SUCCESS aRsysBuf), .await (ExecutePc.returned sType), [], []⟩

private theorem quiescent_finished : Quiescent (finished answer aRsysBuf sType) := by
  apply quiescent_of_blocked
  · intro n k h
    cases h
  · intro n k h
    cases h

private theorem type_last (sType : Int) :
    (Header.ofBytes (Header.bytes ⟨sType, 0⟩)).type = toInt32 sType := by
  rw [Header.ofBytes_bytes]

/-- A message of the output, up to the next header of the target. -/
private theorem reach_message {l : ExecuteOpt} {sBuf : PipeRead} {rest : List PipeRead}
    (hrecv : executeHost.recv l = some (sizeofHeader, afterHeader sExecute aRsysBuf)) :
    Reach (⟨.await l, sendOutput sType (sBuf :: rest), [], []⟩ :
        Link executeHost (executePeer answer))
      ⟨.await (ExecuteOpt.next sExecute (messagePrint (cString sBuf.bytes) aRsysBuf)),
        sendOutput sType rest, [], []⟩ := by
  have hfits := sBuf.fits
  refine reach_messageLeft hrecv rfl ?_
  rw [afterHeader, Header.type_ofBytes, if_pos rfl]
  refine reach_messageLeft rfl (Header.size_ofBytes _ _ (by omega)) ?_
  simp only [Nat.not_lt.mpr hfits, if_false]
  exact reach_messageRight rfl rfl .refl

/-- The loop of the host, by the messages that are still to come. -/
private theorem answered_output (hlast : toInt32 sType ≠ Opt.MESSAGE.code) (output : List PipeRead)
    {l : ExecuteOpt}
    (hrecv : executeHost.recv l = some (sizeofHeader, afterHeader sExecute aRsysBuf)) :
    Answered (finished answer (printBreak sExecute (printOutput aRsysBuf output)) sType)
      ⟨.await l, sendOutput sType output, [], []⟩ := by
  induction output generalizing l aRsysBuf with
  | nil =>
    refine answered_message hrecv rfl (by simp [Header.bytes, htonl]) ?_
    rw [afterHeader, type_last, if_neg hlast]
    exact .refl
  | cons sBuf rest ih =>
    have hnext : executeHost.recv (.next sExecute (messagePrint (cString sBuf.bytes) aRsysBuf)) =
        some (sizeofHeader, afterHeader sExecute (messagePrint (cString sBuf.bytes) aRsysBuf)) := rfl
    exact .of_reach (reach_message hrecv) (ih hnext)

/-- Every run of the operation in which the host returns. -/
theorem execute_settles (answer : Bytes → Answer) (aRsysBuf : Bytes) (sExecute : ExecuteMem) :
    Settles (executeLink answer aRsysBuf (.sent sExecute))
      (finished answer
        (printBreak sExecute (printOutput (printBreak sExecute aRsysBuf)
          (answer sExecute.bytes).output)) (answer sExecute.bytes).sType) := by
  have hreply : executeHost.recv (.reply sExecute aRsysBuf) =
      some (sizeofHeader, afterHeader sExecute (printBreak sExecute aRsysBuf)) := rfl
  refine .of_answered (.of_reach ?_ (answered_output (answer sExecute.bytes).last _ hreply))
    quiescent_finished rfl
  refine reach_messageRight rfl rfl ?_
  simp only [Header.type_ofBytes, if_true]
  refine reach_messageRight rfl ?_ .refl
  exact congrArg Nat.cast sExecute.size.symm

private theorem sound_of_settles {c : Link executeHost (executePeer answer)}
    (h : Settles c (finished answer aRsysBuf sType)) :
    Sound c ↔ toInt32 sType = Opt.SUCCESS.code := by
  constructor
  · intro hsound
    obtain ⟨sType, hright, htype⟩ := hsound _ _ h.reach rfl
    cases hright
    exact htype
  · intro htype d printed hreach hleft
    obtain rfl := h.unique d hreach ⟨_, hleft, rfl⟩
    exact ⟨_, rfl, htype⟩

/-- The host returns `SUCCESS` whatever the last header says. -/
theorem executeOpt_sound_iff (answer : Bytes → Answer) (aRsysBuf : Bytes) (sExecute : ExecuteMem) :
    Sound (executeLink answer aRsysBuf (.sent sExecute)) ↔
      toInt32 (answer sExecute.bytes).sType = Opt.SUCCESS.code := by
  exact sound_of_settles (execute_settles answer aRsysBuf sExecute)

/-- A request for the function `f` without arguments. -/
def plainRequest : ExecuteMem :=
  ⟨102 :: List.replicate (sizeofExecute - 1) 0, by rw [List.length_cons, List.length_replicate]; rfl⟩

/-- A target that cannot fork. -/
def noFork : ExecuteOs := ⟨true, true, false, []⟩

theorem executeOpt_hides_failure : ¬ Sound (executeLink noFork.answer [] (.sent plainRequest)) := by
  intro h
  obtain ⟨sType, hright, htype⟩ := h _ _ (execute_settles _ _ _).reach rfl
  cases hright
  revert htype
  show ¬ toInt32 Opt.FAILURE.code = Opt.SUCCESS.code
  decide

/-- The target of the source is sound unless memory, the pipe or the process is missing. -/
theorem sound_target_iff (os : ExecuteOs) (aRsysBuf : Bytes) (sExecute : ExecuteMem) :
    Sound (executeLink os.answer aRsysBuf (.sent sExecute)) ↔ os.malloc ∧ os.pipe ∧ os.fork := by
  have hsettles := execute_settles os.answer aRsysBuf sExecute
  have htype : toInt32 (os.answer sExecute.bytes).sType = Opt.SUCCESS.code ↔
      os.malloc ∧ os.pipe ∧ os.fork := by
    cases hm : os.malloc <;> cases hp : os.pipe <;> cases hf : os.fork <;>
      simp [ExecuteOs.answer, hm, hp, hf]
  rw [← htype]
  exact sound_of_settles hsettles

/-- An environment text without its first word: nothing is sent, and `SUCCESS` is returned. -/
theorem not_sound_unsent : ¬ Sound (executeLink answer aRsysBuf .unsent) := by
  intro h
  obtain ⟨sType, hright, _⟩ := h _ _ .refl rfl
  cases hright

end Run

end Natc.Agent
