import Natc.Agent.InStep

/-!
# The transfer of `COPY`

The target copies one of its files to another one. Neither a `read` that fails nor a `write` that
takes less than it is given ends the loop of `copyFile` with a failure.
-/

namespace Natc.Agent

open Lib Lib.Link

/-- Whenever the host's `copyOpt` has returned `SUCCESS`, the copy holds the bytes that the source
file had. -/
def CopySound (os : TargetOs) (files : Files) (srcName destName : CharArray) : Prop :=
  ∀ d, Reach ((Operation.copy srcName destName).link os files) d →
    d.left = .await (AskOpt.returned .SUCCESS) →
      ∃ files', d.right = waitAt files' .request ∧ files' destName.chars = files srcName.chars

/-- Up to the end of the file each `read` brings something and each `write` takes all of it. -/
inductive Complete (os : TargetOs) : Bytes → Nat → Prop
  | done (i : Nat) : Complete os [] i
  | more {rest sBuf : Bytes} {i : Nat} (hread : read BUF_SIZE rest (os.reads i) = some sBuf)
      (hbuf : sBuf ≠ []) (hwrite : os.writes i = .full)
      (h : Complete os (rest.drop sBuf.length) (i + 1)) : Complete os rest i

/-- The buffer is there and both files are opened. -/
def CopyOpened (os : TargetOs) (srcName destName : CharArray) : Prop :=
  os.malloc ∧ os.opensRead srcName.chars ∧ os.opensWrite destName.chars

/-- The loop copies all of the source file, or the source file is the copy and empty. -/
def CopiesAll (os : TargetOs) (srcName destName : CharArray) (content : Bytes) : Prop :=
  if destName.chars = srcName.chars then content = [] else Complete os content 0

section Loop

variable {os : TargetOs}

theorem prefix_of_read {rest sBuf : Bytes} {o : ReadOutcome} (h : read BUF_SIZE rest o = some sBuf) :
    rest.take sBuf.length = sBuf := by
  have htake : ∀ n, rest.take (rest.take n).length = rest.take n := fun n => by
    rw [List.length_take, List.take_eq_take_iff]
    omega
  cases o with
  | full =>
    cases h
    exact htake _
  | short k =>
    cases h
    exact htake _
  | ended =>
    cases h
    rfl
  | error => cases h

/-- The loop ends at the end of the file and at a failure. -/
theorem copyData_end {rest : Bytes} {i : Nat} (h : (read BUF_SIZE rest (os.reads i)).getD [] = []) :
    copyData os rest i = [] := by
  rw [copyData]
  exact if_pos h

/-- One round of the loop. -/
theorem copyData_round {rest sBuf : Bytes} {i : Nat}
    (hread : read BUF_SIZE rest (os.reads i) = some sBuf) (hbuf : sBuf ≠ []) :
    copyData os rest i = sBuf.take ((os.writes i).accepts sBuf.length) ++
      copyData os (rest.drop sBuf.length) (i + 1) := by
  rw [copyData, hread, Option.getD_some, if_neg hbuf, write_of_nonneg]

/-- The cases of a round, by what the `read` brings. -/
theorem read_cases_copy (rest : Bytes) (i : Nat) :
    (read BUF_SIZE rest (os.reads i)).getD [] = [] ∨
      ∃ sBuf, read BUF_SIZE rest (os.reads i) = some sBuf ∧ sBuf ≠ [] := by
  cases read BUF_SIZE rest (os.reads i) with
  | none => exact .inl rfl
  | some sBuf =>
    by_cases hbuf : sBuf = []
    · exact .inl hbuf
    · exact .inr ⟨sBuf, rfl, hbuf⟩

theorem length_copyData_le (rest : Bytes) (i : Nat) :
    (copyData os rest i).length ≤ rest.length := by
  induction hk : rest.length using Nat.strongRecOn generalizing rest i with
  | _ k ih =>
    subst hk
    rcases @read_cases_copy os rest i with hend | ⟨sBuf, hread, hbuf⟩
    · rw [copyData_end hend]
      exact Nat.zero_le _
    · have hlength := congrArg List.length (prefix_of_read hread)
      have hpos := List.length_pos_iff.mpr hbuf
      have hdrop := List.length_drop (i := sBuf.length) (l := rest)
      have htake := List.length_take_le ((os.writes i).accepts sBuf.length) sBuf
      rw [List.length_take] at hlength
      have hrest := ih _ (by omega) (rest.drop sBuf.length) (i + 1) rfl
      rw [copyData_round hread hbuf, List.length_append]
      have haccepts := accepts_le sBuf.length (os.writes i)
      rw [List.length_take]
      omega

/-- The copy is the file only if the loop goes through all of it. -/
theorem copyData_eq_iff (rest : Bytes) (i : Nat) :
    copyData os rest i = rest ↔ Complete os rest i := by
  induction hk : rest.length using Nat.strongRecOn generalizing rest i with
  | _ k ih =>
    subst hk
    rcases @read_cases_copy os rest i with hend | ⟨sBuf, hread, hbuf⟩
    · rw [copyData_end hend]
      constructor
      · rintro rfl
        exact .done i
      · intro h
        cases h with
        | done => rfl
        | more hread hbuf =>
          rw [hread] at hend
          exact absurd hend hbuf
    · have hpre := prefix_of_read hread
      have hpos := List.length_pos_iff.mpr hbuf
      have hsplit : rest = sBuf ++ rest.drop sBuf.length := by
        have hparts := List.take_append_drop sBuf.length rest
        rw [hpre] at hparts
        exact hparts.symm
      have hlength := congrArg List.length hsplit
      rw [List.length_append] at hlength
      have hle := @length_copyData_le os (rest.drop sBuf.length) (i + 1)
      have haccepts := accepts_le sBuf.length (os.writes i)
      have ih := ih (rest.drop sBuf.length).length (by omega) (rest.drop sBuf.length) (i + 1) rfl
      rw [copyData_round hread hbuf]
      constructor
      · intro h
        -- nothing makes up for bytes that a `write` leaves out
        have hwhole := congrArg List.length h
        rw [List.length_append, List.length_take] at hwhole
        have hall : (os.writes i).accepts sBuf.length = sBuf.length := by omega
        rw [hall, List.take_length] at h
        have hrest : copyData os (rest.drop sBuf.length) (i + 1) = rest.drop sBuf.length :=
          List.append_cancel_left (h.trans hsplit)
        exact .more hread hbuf ((accepts_eq_iff hpos _).mp hall) (ih.mp hrest)
      · intro h
        cases h with
        | done =>
          rw [List.length_nil] at hlength
          omega
        | more hread' hbuf' hwrite h =>
          rw [hread] at hread'
          cases hread'
          rw [(accepts_eq_iff hpos _).mpr hwrite, List.take_length, ih.mpr h]
          exact hsplit.symm

end Loop

section Copy

variable {os : TargetOs} {files : Files} {srcName destName : CharArray}

theorem copyFile_names (srcName destName : CharArray) :
    cString ((srcName.bytes ++ destName.bytes).take 1024) = srcName.chars ∧
      cString ((srcName.bytes ++ destName.bytes).drop 1024) = destName.chars := by
  rw [List.take_left' srcName.length_bytes, List.drop_left' srcName.length_bytes,
    CharArray.cString_bytes, CharArray.cString_bytes]
  exact ⟨rfl, rfl⟩

theorem copyFile_refused (h : ¬ (CopyOpened os srcName destName ∧ (files srcName.chars).isSome)) :
    copyFile os files (srcName.bytes ++ destName.bytes) =
      reply .FAILURE (waitAt files .request) := by
  obtain ⟨hsrc, hdest⟩ := copyFile_names srcName destName
  rw [copyFile, hsrc, hdest]
  dsimp only
  split
  · rfl
  · split
    · rfl
    · split
      · rfl
      · next hmalloc hread hwrite =>
        simp only [Bool.not_eq_true', Bool.not_eq_false, Bool.and_eq_true] at hmalloc hread hwrite
        exact absurd ⟨⟨hmalloc, hread.1, hwrite⟩, hread.2⟩ h

theorem copyFile_opened {content : Bytes} (h : CopyOpened os srcName destName)
    (hcontent : files srcName.chars = some content) :
    copyFile os files (srcName.bytes ++ destName.bytes) =
      reply .SUCCESS (waitAt ((files.create destName.chars).append destName.chars
        (copyData os (if destName.chars = srcName.chars then [] else content) 0)) .request) := by
  obtain ⟨hsrc, hdest⟩ := copyFile_names srcName destName
  obtain ⟨hmalloc, hread, hwrite⟩ := h
  have hold : ((files.create destName.chars) srcName.chars).getD [] =
      if destName.chars = srcName.chars then [] else content := by
    rw [Files.create, Files.set]
    by_cases hsame : srcName.chars = destName.chars
    · rw [if_pos hsame, if_pos hsame.symm]
      rfl
    · rw [if_neg hsame, if_neg (Ne.symm hsame), hcontent]
      rfl
  rw [copyFile, hsrc, hdest]
  dsimp only
  rw [hmalloc, hread, hwrite, hcontent, hold]
  rfl

/-- What the copy holds behind the loop. -/
theorem copied_dest (data : Bytes) :
    (files.create destName.chars).append destName.chars data destName.chars = some data :=
  Files.append_same _ _ _ (Files.create_same files destName.chars)

/-- `COPY` is sound if both files cannot be opened, or the loop copies all of the source. -/
theorem copySound_iff (os : TargetOs) (files : Files) (srcName destName : CharArray) :
    CopySound os files srcName destName ↔
      (CopyOpened os srcName destName → ∀ content, files srcName.chars = some content →
        CopiesAll os srcName destName content) := by
  constructor
  · intro h hopened content hcontent
    have hsettles := copy_settles_reply os files (copyFile_opened hopened hcontent)
    obtain ⟨files', hright, hfile⟩ := h _ hsettles.reach rfl
    cases hright
    rw [copied_dest, hcontent] at hfile
    have hdata := Option.some.inj hfile
    rw [CopiesAll]
    split
    · next hsame =>
      rw [if_pos hsame] at hdata
      rw [← hdata]
      exact copyData_end (by
        rcases @read_cases_copy os [] 0 with hend | ⟨sBuf, hread, hbuf⟩
        · exact hend
        · exact absurd (prefix_of_read hread).symm (by rwa [List.take_nil]))
    · next hother =>
      rw [if_neg hother] at hdata
      exact (copyData_eq_iff content 0).mp hdata
  · intro h d hd hleft
    by_cases hopened : CopyOpened os srcName destName ∧ (files srcName.chars).isSome
    · obtain ⟨content, hcontent⟩ := Option.isSome_iff_exists.mp hopened.2
      have hall := h hopened.1 content hcontent
      have hsettles := copy_settles_reply os files (copyFile_opened hopened.1 hcontent)
      rw [hsettles.unique d hd ⟨_, hleft, rfl⟩]
      refine ⟨_, rfl, ?_⟩
      rw [copied_dest, hcontent]
      rw [CopiesAll] at hall
      split at hall
      · next hsame =>
        rw [if_pos hsame, hall]
        exact congrArg some ((copyData_eq_iff [] 0).mpr (.done 0))
      · next hother =>
        rw [if_neg hother]
        exact congrArg some ((copyData_eq_iff content 0).mpr hall)
    · have hsettles := copy_settles_reply os files (copyFile_refused hopened)
      rw [hsettles.unique d hd ⟨_, hleft, rfl⟩] at hleft
      cases hleft

/-- A copy to a full disk is empty and reported as a success. -/
theorem not_copySound_diskFull : ¬ ∀ os files srcName destName,
    CopySound os files srcName destName := by
  intro h
  have hsettles := copy_settles_reply diskFull (fun _ => some [97])
    (@copyFile_opened diskFull _ ⟨[115], by decide, by decide⟩ ⟨[100], by decide, by decide⟩ _
      ⟨rfl, rfl, rfl⟩ rfl)
  obtain ⟨files', hright, hfile⟩ := h _ _ _ _ _ hsettles.reach rfl
  cases hright
  rw [copied_dest] at hfile
  have hdata : copyData diskFull [97] 0 = [] := by
    rw [copyData_round rfl (by decide)]
    exact copyData_end rfl
  have heq : copyData diskFull [97] 0 = [97] := Option.some.inj hfile
  rw [hdata] at heq
  cases heq

end Copy

end Natc.Agent
