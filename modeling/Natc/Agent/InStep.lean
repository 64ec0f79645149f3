import Natc.Agent.Get

/-!
# Host and target in step

Whether a file operation of the host leaves the connection as it found it: the target at the start
of a request and no byte on the way.
-/

namespace Natc.Agent

open Lib Lib.Link

/-- Whenever the host has returned, the connection is at rest. -/
def InStep {p : Peer UInt8} {os : TargetOs} (c : Link p (target os)) : Prop :=
  ∀ d, Reach c d → p.Ended d.left → AtRest d

section Rest

variable {p : Peer UInt8} {os : TargetOs} {files : Files} {c d : Link p (target os)}

theorem inStep_of_settles {l : p.Label} (h : Settles c (restLink l os files)) : InStep c := by
  intro d hd hend
  rw [h.unique d hd hend]
  exact atRest_restLink l

/-- A host that waits for ever has not returned. -/
theorem inStep_of_hung (hd : Reach c d) (hquiet : Quiescent d) (hhung : ¬ p.Ended d.left) :
    InStep c := by
  intro e he hend
  have hleft := left_of_ended (reach_quiescent hd hquiet he) hend
  exact absurd (hleft ▸ hend) hhung

theorem not_inStep (hd : Reach c d) (hend : p.Ended d.left) (hrest : ¬ AtRest d) : ¬ InStep c :=
  fun h => hrest (h d hd hend)

end Rest

section Ask

variable (os : TargetOs) (files : Files)

private theorem handleFile_reply (opt : Opt) (sPath : Bytes) :
    ∃ type files', handleFile os files opt sPath = reply type (waitAt files' .request) := by
  rw [handleFile]
  split
  · exact ⟨_, _, rfl⟩
  · exact ⟨_, _, rfl⟩

private theorem copyFile_reply (SCopyFile : Bytes) :
    ∃ type files', copyFile os files SCopyFile = reply type (waitAt files' .request) := by
  simp only [copyFile]
  repeat' split
  all_goals exact ⟨_, _, rfl⟩

/-- An operation with one request and one reply. -/
theorem ask_settles {os : TargetOs} {files files' : Files} {type type' : Opt} {size : Int}
    {body : Bytes} {pc : TargetPc} {k : Bytes → Code UInt8 Target}
    (hrequest : request files (Header.bytes ⟨type.code, size⟩) = waitAt files pc)
    (hrecv : (target os).recv ⟨files, pc⟩ = some ((body.length : Int), k))
    (hreply : k body = reply type' (waitAt files' .request)) :
    Settles (⟨ask type size body, waitAt files .request, [], []⟩ : Link askHost (target os))
      (restLink (AskOpt.returned (if type' = .SUCCESS then .SUCCESS else .FAILURE)) os files') := by
  have hreach : Reach (⟨ask type size body, waitAt files .request, [], []⟩ :
      Link askHost (target os)) ⟨.await .reply, reply type' (waitAt files' .request), [], []⟩ := by
    refine reach_messageRight rfl rfl ?_
    rw [hrequest]
    refine reach_messageRight hrecv rfl ?_
    rw [hreply]
    exact .refl
  refine settles_restLink rfl (.of_reach hreach (answered_reply type' rfl ?_))
  simp only [Header.type_ofBytes, Opt.code_inj]

/-- What a copy comes to. -/
theorem copy_settles_reply {srcName destName : CharArray} {type' : Opt} {files' : Files}
    (hreply : copyFile os files (srcName.bytes ++ destName.bytes) =
      reply type' (waitAt files' .request)) :
    Settles ((Operation.copy srcName destName).link os files)
      (restLink (AskOpt.returned (if type' = .SUCCESS then .SUCCESS else .FAILURE)) os
        files') := by
  refine @ask_settles os files files' .COPY type' sizeofCopyFile _ .copyFile _ ?_ ?_ hreply
  · simp only [request, Header.type_ofBytes, Opt.ofCode?_code]
  · rw [List.length_append, CharArray.length_bytes, CharArray.length_bytes]
    rfl

theorem copy_settles (srcName destName : CharArray) :
    ∃ sRc files', Settles ((Operation.copy srcName destName).link os files)
      (restLink (AskOpt.returned sRc) os files') := by
  obtain ⟨type', files', hreply⟩ := copyFile_reply os files (srcName.bytes ++ destName.bytes)
  exact ⟨_, files', copy_settles_reply os files hreply⟩

theorem manage_settles (aOption : FileOpt) (aName : CharArray) :
    ∃ sRc files', Settles ((Operation.manage aOption aName).link os files)
      (restLink (AskOpt.returned sRc) os files') := by
  obtain ⟨type', files', hreply⟩ := handleFile_reply os files aOption.opt aName.bytes
  have hrequest : request files (Header.bytes ⟨aOption.opt.code, sizeofPathName⟩) =
      waitAt files (.handleFile aOption.opt) := by
    cases aOption <;>
      simp only [FileOpt.opt, request, Header.type_ofBytes, Opt.ofCode?_code]
  have hrecv : (target os).recv ⟨files, .handleFile aOption.opt⟩ =
      some ((aName.bytes.length : Int), handleFile os files aOption.opt) := by
    rw [CharArray.length_bytes]
    rfl
  exact ⟨_, files', ask_settles hrequest hrecv hreply⟩

end Ask

/-- When an operation keeps host and target in step: a `PUT` if no file is opened or the target
absorbs the messages, a `GET` if the remote file is not cut short, the others always. -/
def Operation.KeepsStep (os : TargetOs) (files : Files) : Operation → Prop
  | put hos content name =>
      Opened hos os name → Absorbs os content.length (announced content) (announced content) 0
  | get hos _ path =>
      ∀ content, hos.malloc ∧ hos.opens → remote os files path = some content →
        announced content ≠ 0 → ¬ CutShort os content (announced content) 0
  | copy _ _ => True
  | manage _ _ => True

private theorem get_inStep_iff (hos : HostOs) (os : TargetOs) (files : Files)
    (before : Option Bytes) (path : CharArray) :
    InStep ((Operation.get hos before path).link os files) ↔
      (Operation.get hos before path).KeepsStep os files := by
  by_cases hlocal : hos.malloc ∧ hos.opens
  · cases hremote : remote os files path with
    | none =>
      exact iff_of_true (inStep_of_settles (get_missing hos os files before path hlocal hremote))
        fun content _ h => by cases hremote.symm.trans h
    | some content =>
      by_cases hsize : announced content = 0
      · refine iff_of_true
          (inStep_of_settles (get_empty hos os files before path hlocal hremote hsize))
          fun content' _ h hne => ?_
        obtain rfl : content = content' := Option.some.inj (hremote.symm.trans h)
        exact absurd hsize hne
      · have hfirst := reach_firstRound hos os files before path hlocal hremote hsize
        have hne : content ≠ [] := by
          rintro rfl
          exact hsize (announced_of_lt [] (by decide))
        constructor
        · intro h content' _ hcontent' _ hcut
          obtain rfl : content = content' := Option.some.inj (hremote.symm.trans hcontent')
          obtain ⟨c, hreach, hend, hrest⟩ := get_cut hos files [] hcut
            (Int.le_refl _)
          exact not_inStep (hfirst.trans hreach) hend hrest h
        · intro h
          rcases get_whole hos files [] (h content hlocal hremote hsize)
            (Int.le_refl _) hne (announced_le content) with
            ⟨l, hend, hanswered⟩ | ⟨c, hreach, hquiet, hhung⟩
          · exact inStep_of_settles (settles_restLink hend (.of_reach hfirst hanswered))
          · exact inStep_of_hung (hfirst.trans hreach) hquiet hhung
  · exact iff_of_true (inStep_of_settles (get_refused hos os files before path hlocal))
      fun _ h => absurd h hlocal

private theorem put_inStep_iff (hos : HostOs) (os : TargetOs) (files : Files) (content : Bytes)
    (name : CharArray) :
    InStep ((Operation.put hos content name).link os files) ↔
      (Operation.put hos content name).KeepsStep os files := by
  constructor
  · intro h hopened
    by_contra hlost
    obtain ⟨sRc, c, hreach, hapart, _⟩ := put_apart hos os files content name hopened hlost
    exact not_inStep hreach ⟨_, hapart.returned, rfl⟩ hapart.apart h
  · intro h
    obtain ⟨sRc, files', hsettles, _⟩ := put_settles hos os files content name h
    exact inStep_of_settles hsettles

end Natc.Agent
