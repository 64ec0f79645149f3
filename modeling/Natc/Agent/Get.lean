import Natc.Agent.Put

/-!
# The transfer of `GET`

The target counts what it reads, the host counts what it writes; so the host never expects less than
the target still has to send. The loops come apart only at an empty message.
-/

namespace Natc.Agent

open Lib Lib.Link

/-- Before the `n` bytes are read a `read` finds the end of the file. -/
inductive CutShort (os : TargetOs) : Bytes → Int → Nat → Prop
  | here {rest : Bytes} {n : Int} {i : Nat} (h : os.reads i = .ended) : CutShort os rest n i
  | later {rest sBuf : Bytes} {n : Int} {i : Nat}
      (hread : read MAX_BUF_SIZE rest (os.reads i) = some sBuf) (hbuf : sBuf ≠ [])
      (hmore : 0 < n - sBuf.length)
      (h : CutShort os (rest.drop sBuf.length) (n - sBuf.length) (i + 1)) : CutShort os rest n i

section Rounds

variable {hos : HostOs} {os : TargetOs} {files : Files} {sFile rest sBuf : Bytes} {n m : Int}
  {i : Nat}

/-- The connection at the start of a round: the host expects `m` bytes, the target has `n` bytes to
send. -/
def getRound (hos : HostOs) (os : TargetOs) (files : Files) (sFile rest : Bytes) (m n : Int)
    (i : Nat) : Link (getHost hos) (target os) :=
  ⟨.await (GetOpt.size sFile m i), getRead os files rest n i, [], []⟩

/-- What the host's file gets of a message, and what the host counts for it. -/
def written (hos : HostOs) (sBuf : Bytes) (i : Nat) : Bytes :=
  sBuf.take ((hos.writes i).accepts sBuf.length)

def counted (hos : HostOs) (sBuf : Bytes) (i : Nat) : Int :=
  if hos.writes i = .error then -1 else (hos.writes i).accepts sBuf.length

private theorem counted_le (hos : HostOs) (sBuf : Bytes) (i : Nat) :
    counted hos sBuf i ≤ sBuf.length := by
  have haccepts := accepts_le sBuf.length (hos.writes i)
  rw [counted]
  split <;> omega

private theorem length_of_read {o : ReadOutcome} (h : read MAX_BUF_SIZE rest o = some sBuf) :
    sBuf.length ≤ rest.length ∧ sBuf.length < 2 ^ 31 := by
  have hle := length_read_le MAX_BUF_SIZE rest o
  have hsize : sBuf.length ≤ MAX_BUF_SIZE := by
    cases o with
    | full =>
      cases h
      exact List.length_take_le _ _
    | short k =>
      cases h
      exact Nat.le_trans (List.length_take_le _ _) (Nat.min_le_right _ _)
    | ended =>
      cases h
      exact Nat.zero_le _
    | error => cases h
  rw [h, Option.getD_some] at hle
  rw [MAX_BUF_SIZE] at hsize
  exact ⟨hle, by omega⟩

private theorem read_cases (hrest : rest ≠ []) (o : ReadOutcome) :
    read MAX_BUF_SIZE rest o = none ∨ o = .ended ∨
      ∃ sBuf, read MAX_BUF_SIZE rest o = some sBuf ∧ sBuf ≠ [] := by
  have hsize : MAX_BUF_SIZE ≠ 0 := by decide
  cases o with
  | full => exact .inr (.inr ⟨_, rfl, by simp [hsize, hrest]⟩)
  | short k => exact .inr (.inr ⟨_, rfl, by simp [hsize, hrest]⟩)
  | ended => exact .inr (.inl rfl)
  | error => exact .inl rfl

/-- The message of a round, up to its data. -/
private theorem reach_getData {d : Link (getHost hos) (target os)}
    (hread : read MAX_BUF_SIZE rest (os.reads i) = some sBuf)
    (h : Reach ⟨getData hos sFile m i (Header.bytes ⟨Opt.SUCCESS.code, sBuf.length⟩) sBuf,
      waitAt files (.getReply (rest.drop sBuf.length) n i sBuf.length), [], []⟩ d) :
    Reach (getRound hos os files sFile rest m n i) d := by
  rw [getRound, getRead, hread]
  exact reach_messageLeft rfl rfl
    (reach_messageLeft rfl (Header.size_ofBytes _ _ (length_of_read hread).2) h)

/-- The reply to a message. -/
private theorem reach_getReply (hos : HostOs) (files : Files) (sFile : Bytes) (m n : Int)
    (hread : read MAX_BUF_SIZE rest (os.reads i) = some sBuf)
    (hbuf : sBuf ≠ []) :
    Reach (getRound hos os files sFile rest m n i)
      ⟨.await (if m - counted hos sBuf i ≤ 0 then GetOpt.final (sFile ++ written hos sBuf i)
          else GetOpt.size (sFile ++ written hos sBuf i) (m - counted hos sBuf i) (i + 1)),
        if n - sBuf.length ≤ 0 then reply .SUCCESS (waitAt files .request)
        else getRead os files (rest.drop sBuf.length) (n - sBuf.length) (i + 1), [], []⟩ := by
  refine reach_getData hread ?_
  simp only [getData, hbuf, if_false, write_of_nonneg]
  refine reach_messageRight rfl rfl ?_
  simp only [getReply, Header.type_ofBytes, Opt.code_inj, reduceCtorEq, if_false]
  exact .refl

/-- A round in the middle of the transfer. -/
private theorem reach_getRound (hos : HostOs) (files : Files) (sFile : Bytes)
    (hread : read MAX_BUF_SIZE rest (os.reads i) = some sBuf) (hbuf : sBuf ≠ []) (hmn : n ≤ m)
    (hmore : 0 < n - sBuf.length) :
    Reach (getRound hos os files sFile rest m n i)
      (getRound hos os files (sFile ++ written hos sBuf i) (rest.drop sBuf.length)
        (m - counted hos sBuf i) (n - sBuf.length) (i + 1)) := by
  have hreach := reach_getReply hos files sFile m n hread hbuf
  have hcounted := counted_le hos sBuf i
  rwa [if_neg (by omega), if_neg (by omega)] at hreach

/-- An empty message ends the loop of the host alone. -/
theorem get_cut (hos : HostOs) (files : Files) (sFile : Bytes) (h : CutShort os rest n i)
    (hmn : n ≤ m) :
    ∃ c, Reach (getRound hos os files sFile rest m n i) c ∧ (getHost hos).Ended c.left ∧
      ¬ AtRest c := by
  induction h generalizing m sFile with
  | @here rest n i h =>
    have hread : read MAX_BUF_SIZE rest (os.reads i) = some [] := by rw [h]; rfl
    refine ⟨_, reach_getData hread .refl, ⟨_, rfl, rfl⟩, fun hrest => ?_⟩
    obtain ⟨files', h⟩ := hrest.request
    cases h
  | @later rest sBuf n i hread hbuf hmore h ih =>
    have hcounted := counted_le hos sBuf i
    obtain ⟨c, hreach, hend, hrest⟩ := ih _ (by omega : n - sBuf.length ≤ m - counted hos sBuf i)
    exact ⟨c, (reach_getRound hos files sFile hread hbuf hmn hmore).trans hreach, hend, hrest⟩

/-- Otherwise the loops end together, or a `read` fails and the host waits for ever. -/
theorem get_whole (hos : HostOs) (files : Files) (sFile : Bytes) (h : ¬ CutShort os rest n i)
    (hmn : n ≤ m) (hrest : rest ≠ []) (hlen : n ≤ rest.length) :
    (∃ l, (getHost hos).recv l = none ∧
        Answered (restLink l os files) (getRound hos os files sFile rest m n i)) ∨
      ∃ c, Reach (getRound hos os files sFile rest m n i) c ∧ Quiescent c ∧
        ¬ (getHost hos).Ended c.left := by
  induction hk : rest.length using Nat.strongRecOn generalizing rest n m i sFile with
  | _ k ih =>
    rcases read_cases hrest (os.reads i) with hread | hread | ⟨sBuf, hread, hbuf⟩
    · right
      refine ⟨_, .refl, ?_, ?_⟩
      · rw [getRound, getRead, hread]
        refine quiescent_of_blocked (fun l k h => ?_) fun l k h => ?_ <;> cases h <;>
          exact .inr (by decide)
      · rintro ⟨l, hl, hnone⟩
        cases hl
        cases hnone
    · exact absurd (.here hread) h
    · have hle := (length_of_read hread).1
      have hpos := List.length_pos_iff.mpr hbuf
      have hcounted := counted_le hos sBuf i
      by_cases hmore : 0 < n - sBuf.length
      · have hdrop := List.length_drop (i := sBuf.length) (l := rest)
        have hround := reach_getRound hos files sFile hread hbuf hmn hmore
        rcases ih (rest.drop sBuf.length).length (by omega) _
          (fun hcut => h (.later hread hbuf hmore hcut))
          (by omega : n - sBuf.length ≤ m - counted hos sBuf i)
          (List.ne_nil_of_length_pos (by omega)) (by omega) rfl with
          ⟨l, hend, hanswered⟩ | ⟨c, hreach, hquiet, hhung⟩
        · exact .inl ⟨l, hend, .of_reach hround hanswered⟩
        · exact .inr ⟨c, hround.trans hreach, hquiet, hhung⟩
      · have hreach := reach_getReply hos files sFile m n hread hbuf
        rw [if_pos (by omega : n - sBuf.length ≤ 0)] at hreach
        left
        by_cases hdone : m - counted hos sBuf i ≤ 0
        · rw [if_pos hdone] at hreach
          exact ⟨_, rfl, .of_reach hreach (answered_reply .SUCCESS rfl rfl)⟩
        · -- the host takes the last header for the size of another message
          rw [if_neg hdone] at hreach
          refine ⟨.returned .FAILURE (some (sFile ++ written hos sBuf i)), rfl, .of_reach hreach
            (answered_message rfl rfl (by simp [Header.bytes, htonl]) ?_)⟩
          change LeftRun ⟨_, _, _, ([] : Bytes) ++ []⟩ _
          exact leftRun_recv rfl (Header.size_ofBytes Opt.SUCCESS.code 0 (by decide)) .refl

/-- Every write of the host takes everything, and every read of the target gives something. -/
structure Smooth (hos : HostOs) (os : TargetOs) : Prop where
  writes : ∀ i, hos.writes i = .full
  reads : ∀ i, os.reads i ≠ .ended ∧ os.reads i ≠ .error

private theorem eq_take_of_read {o : ReadOutcome} (h : read MAX_BUF_SIZE rest o = some sBuf)
    (ho : o ≠ .ended) : sBuf = rest.take sBuf.length ∧ sBuf.length ≤ MAX_BUF_SIZE := by
  cases o with
  | full =>
    cases h
    rw [List.length_take, ← List.take_eq_take_min]
    exact ⟨rfl, by omega⟩
  | short k =>
    cases h
    rw [List.length_take, ← List.take_eq_take_min]
    exact ⟨rfl, by omega⟩
  | ended => exact absurd rfl ho
  | error => cases h

/-- Then both loops go on until the `n` bytes are there; the last message may bring more. -/
theorem get_smooth (h : Smooth hos os) (files : Files) (sFile : Bytes) (hrest : rest ≠ [])
    (hlen : n ≤ rest.length) :
    ∃ k : Nat, n ≤ k ∧ k ≤ rest.length ∧ (k : Int) ≤ max n 0 + MAX_BUF_SIZE ∧
      Answered (restLink (GetOpt.returned .SUCCESS (some (sFile ++ rest.take k))) os files)
        (getRound hos os files sFile rest n n i) := by
  induction hk : rest.length using Nat.strongRecOn generalizing rest n i sFile with
  | _ len ih =>
    rcases read_cases hrest (os.reads i) with hread | hread | ⟨sBuf, hread, hbuf⟩
    · exfalso
      cases ho : os.reads i with
      | error => exact (h.reads i).2 ho
      | full | short k | ended =>
        rw [ho] at hread
        cases hread
    · exact absurd hread (h.reads i).1
    · have hle := (length_of_read hread).1
      have hpos := List.length_pos_iff.mpr hbuf
      obtain ⟨htake, hsize⟩ := eq_take_of_read hread (h.reads i).1
      have hcounted : counted hos sBuf i = sBuf.length := by
        simp [counted, h.writes i, WriteOutcome.accepts]
      have hwritten : written hos sBuf i = sBuf := by
        simp [written, h.writes i, WriteOutcome.accepts]
      by_cases hmore : 0 < n - sBuf.length
      · have hdrop := List.length_drop (i := sBuf.length) (l := rest)
        have hround := reach_getRound hos files sFile hread hbuf (Int.le_refl n) hmore
        rw [hcounted, hwritten] at hround
        obtain ⟨k, hnk, hkl, hkm, hanswered⟩ := ih (rest.drop sBuf.length).length (by omega)
          (sFile ++ sBuf) (List.ne_nil_of_length_pos (by omega))
          (by omega : n - sBuf.length ≤ (rest.drop sBuf.length).length) rfl
        refine ⟨sBuf.length + k, by omega, by omega, by omega, ?_⟩
        rw [List.take_add, ← htake, ← List.append_assoc]
        exact .of_reach hround hanswered
      · -- the message with which both counts are reached
        have hreach := reach_getReply hos files sFile n n hread hbuf
        rw [hcounted, hwritten, if_pos (by omega), if_pos (by omega)] at hreach
        refine ⟨sBuf.length, by omega, by omega, by omega, ?_⟩
        rw [← htake]
        exact .of_reach hreach (answered_reply .SUCCESS rfl rfl)

end Rounds

section Operation

variable (hos : HostOs) (os : TargetOs) (files : Files) (before : Option Bytes) (path : CharArray)

/-- The content of the remote file if it can be opened. -/
def remote (os : TargetOs) (files : Files) (path : CharArray) : Option Bytes :=
  if os.malloc ∧ os.opensRead path.chars then files path.chars else none

private theorem getFile_eq :
    getFile os files path.bytes =
      match remote os files path with
      | none => reply .FAILURE (waitAt files .request)
      | some content =>
          .send (Header.bytes ⟨Opt.SUCCESS.code, sizeofFileInfo⟩) <|
            .send (path.bytes ++ htonl (announced content)) <|
              if announced content = 0 then reply .SUCCESS (waitAt files .request)
              else getRead os files content (announced content) 0 := by
  simp only [getFile, remote, CharArray.cString_bytes]
  cases os.malloc <;> cases os.opensRead path.chars <;> simp
  rfl

private theorem reach_getFile (hlocal : hos.malloc ∧ hos.opens)
    {d : Link (getHost hos) (target os)}
    (h : Reach ⟨.await GetOpt.reply, getFile os files path.bytes, [], []⟩ d) :
    Reach ((Operation.get hos before path).link os files) d := by
  change Reach ⟨getOpt hos before path, waitAt files .request, [], []⟩ d
  simp only [getOpt, hlocal.1, hlocal.2, Bool.not_true, Bool.or_self, Bool.false_eq_true, if_false]
  refine reach_messageRight rfl rfl ?_
  simp only [request, Header.type_ofBytes, Opt.ofCode?_code]
  refine reach_messageRight rfl ?_ h
  rw [CharArray.length_bytes]
  rfl

/-- The file info has come to the host. -/
private theorem reach_info (hlocal : hos.malloc ∧ hos.opens) {content : Bytes}
    (hremote : remote os files path = some content) {d : Link (getHost hos) (target os)}
    (h : Reach ⟨.await (if announced content = 0 then GetOpt.empty
        else GetOpt.size [] (announced content) 0),
      if announced content = 0 then reply .SUCCESS (waitAt files .request)
      else getRead os files content (announced content) 0, [], []⟩ d) :
    Reach ((Operation.get hos before path).link os files) d := by
  refine reach_getFile hos os files before path hlocal ?_
  rw [getFile_eq, hremote]
  refine reach_messageLeft rfl rfl ?_
  simp only [Header.type_ofBytes, Opt.code_inj, reduceCtorEq, if_false]
  have hinfo : fileInfoSize (path.bytes ++ htonl (announced content)) = announced content := by
    rw [fileInfoSize_append, toInt32_announced]
  refine reach_messageLeft rfl ?_ ?_
  · rw [show sizeofFileInfo = ((1028 : Nat) : Int) from rfl, Header.size_ofBytes _ _ (by decide),
      List.length_append, CharArray.length_bytes, length_htonl]
  · simp only [hinfo]
    exact h

theorem get_refused (hlocal : ¬ (hos.malloc ∧ hos.opens)) :
    Settles ((Operation.get hos before path).link os files)
      (restLink (GetOpt.returned .FAILURE before) os files) := by
  have hstart : (Operation.get hos before path).link os files =
      restLink (GetOpt.returned .FAILURE before) os files := by
    change (⟨getOpt hos before path, _, _, _⟩ : Link (getHost hos) (target os)) = _
    rw [getOpt, if_pos (by simpa [imp_iff_not_or] using hlocal)]
    rfl
  rw [hstart]
  exact .of_quiescent (quiescent_restLink rfl)

theorem get_missing (hlocal : hos.malloc ∧ hos.opens) (hremote : remote os files path = none) :
    Settles ((Operation.get hos before path).link os files)
      (restLink (GetOpt.returned .FAILURE (some [])) os files) := by
  refine settles_restLink rfl (.of_reach (reach_getFile hos os files before path hlocal .refl) ?_)
  rw [getFile_eq, hremote]
  refine answered_reply .FAILURE rfl ?_
  simp only [Header.type_ofBytes, if_true]
  rfl

theorem get_empty (hlocal : hos.malloc ∧ hos.opens) {content : Bytes}
    (hremote : remote os files path = some content) (hsize : announced content = 0) :
    Settles ((Operation.get hos before path).link os files)
      (restLink (GetOpt.returned .SUCCESS (some [])) os files) := by
  refine settles_restLink rfl (.of_reach
    (reach_info hos os files before path hlocal hremote .refl) ?_)
  rw [if_pos hsize, if_pos hsize]
  exact answered_reply .SUCCESS rfl rfl

/-- The transfer comes to its first round. -/
theorem reach_firstRound (hlocal : hos.malloc ∧ hos.opens) {content : Bytes}
    (hremote : remote os files path = some content) (hsize : announced content ≠ 0) :
    Reach ((Operation.get hos before path).link os files)
      (getRound hos os files [] content (announced content) (announced content) 0) := by
  refine reach_info hos os files before path hlocal hremote ?_
  rw [if_neg hsize, if_neg hsize]
  exact .refl

/-- What `getOpt` leaves of a file that is read and written without a failure. -/
private theorem get_settles (hlocal : hos.malloc ∧ hos.opens) (hsmooth : Smooth hos os)
    {content : Bytes} (hremote : remote os files path = some content) :
    ∃ k : Nat, announced content ≤ k ∧ k ≤ content.length ∧
      (k : Int) ≤ max (announced content) 0 + MAX_BUF_SIZE ∧
      Settles ((Operation.get hos before path).link os files)
        (restLink (GetOpt.returned .SUCCESS (some (content.take k))) os files) := by
  by_cases hsize : announced content = 0
  · refine ⟨0, by omega, Nat.zero_le _, by omega, ?_⟩
    rw [List.take_zero]
    exact get_empty hos os files before path hlocal hremote hsize
  · have hne : content ≠ [] := by
      intro hnil
      rw [hnil] at hsize
      exact hsize rfl
    obtain ⟨k, hnk, hkl, hkm, hanswered⟩ := get_smooth (i := 0) hsmooth files [] hne
      (announced_le content)
    refine ⟨k, hnk, hkl, hkm, settles_restLink rfl (.of_reach ?_ hanswered)⟩
    exact reach_firstRound hos os files before path hlocal hremote hsize

private theorem settles_inj {c : Link (getHost hos) (target os)} {sFile sFile' : Option Bytes}
    {sRc sRc' : Opt} (h : Settles c (restLink (GetOpt.returned sRc sFile) os files))
    (h' : Settles c (restLink (GetOpt.returned sRc' sFile') os files)) : sFile = sFile' := by
  have heq := h'.unique _ h.reach ⟨_, rfl, rfl⟩
  cases heq
  rfl

/-- The file arrives whole, and both loops end together, if and only if its size is an `int`. -/
theorem get_exact_iff (hlocal : hos.malloc ∧ hos.opens) (hsmooth : Smooth hos os)
    {content : Bytes} (hremote : remote os files path = some content) :
    Settles ((Operation.get hos before path).link os files)
      (restLink (GetOpt.returned .SUCCESS (some content)) os files) ↔
      content.length < 2 ^ 31 := by
  obtain ⟨k, hnk, hkl, hkm, hsettles⟩ := get_settles hos os files before path hlocal hsmooth hremote
  constructor
  · intro h
    by_contra hlarge
    have hcontent := Option.some.inj (settles_inj _ _ _ h hsettles)
    have hlength := congrArg List.length hcontent
    rw [List.length_take] at hlength
    -- the announced size lies a multiple of 2 ^ 32 below the length
    have hbelow : max (announced content) 0 + MAX_BUF_SIZE < content.length := by
      rw [announced, toInt32, Int.bmod_def, MAX_BUF_SIZE]
      split <;> omega
    omega
  · intro hlt
    rw [announced_of_lt content hlt] at hnk
    rwa [List.take_of_length_le (by omega)] at hsettles

/-- A host whose file operations all succeed. -/
def ready : HostOs := ⟨true, true, fun _ => .full⟩

def readable : TargetOs where
  malloc := true
  opensRead _ := true
  opensWrite _ := true
  reads _ := .full
  writes _ := .full
  manages _ _ := true

def dumpPath : CharArray := ⟨[100], by decide, by decide⟩

private theorem smooth_readable : Smooth ready readable where
  writes _ := rfl
  reads i := by
    show ReadOutcome.full ≠ .ended ∧ ReadOutcome.full ≠ .error
    decide

theorem get_exact_byte :
    Settles ((Operation.get ready none dumpPath).link readable fun _ => some [97])
      (restLink (GetOpt.returned .SUCCESS (some [97])) readable fun _ => some [97]) ↔
      [97].length < 2 ^ 31 :=
  get_exact_iff ready readable (fun _ => some [97]) none dumpPath ⟨rfl, rfl⟩ smooth_readable rfl

/-- The size of a file of 4 GiB becomes 0. -/
theorem get_large_empty :
    ¬ Settles
      ((Operation.get ready none dumpPath).link readable fun _ => some (List.replicate (2 ^ 32) 0))
      (restLink (GetOpt.returned .SUCCESS (some (List.replicate (2 ^ 32) 0))) readable
        fun _ => some (List.replicate (2 ^ 32) 0)) := by
  intro h
  generalize hcontent : List.replicate (2 ^ 32) (0 : UInt8) = content at h
  have hlength : content.length = 2 ^ 32 := by
    rw [← hcontent, List.length_replicate]
  have hsize : announced content = 0 := by
    rw [announced, hlength]
    rfl
  have hremote : remote readable (fun _ => some content) dumpPath = some content := rfl
  have hempty := get_empty ready readable _ none dumpPath ⟨rfl, rfl⟩ hremote hsize
  obtain rfl := Option.some.inj (settles_inj _ _ _ h hempty)
  cases hlength

/-- After a refusal the local file is as before if and only if it could not be opened, or was there
and empty. -/
theorem get_refusal_intact_iff (hremote : remote os files path = none) :
    Settles ((Operation.get hos before path).link os files)
      (restLink (GetOpt.returned .FAILURE before) os files) ↔
      ¬ (hos.malloc ∧ hos.opens) ∨ before = some [] := by
  by_cases hlocal : hos.malloc ∧ hos.opens
  · have hmissing := get_missing hos os files before path hlocal hremote
    constructor
    · intro h
      exact .inr (settles_inj hos os _ h hmissing)
    · rintro (h | h)
      · exact absurd hlocal h
      · rwa [h] at hmissing ⊢
  · exact iff_of_true (get_refused hos os files before path hlocal) (.inl hlocal)

theorem get_refusal_absent :
    Settles ((Operation.get ready (some []) dumpPath).link readable fun _ => none)
      (restLink (GetOpt.returned .FAILURE (some [])) readable fun _ => none) ↔
      ¬ (ready.malloc ∧ ready.opens) ∨ some ([] : Bytes) = some [] :=
  get_refusal_intact_iff ready readable (fun _ => none) (some []) dumpPath rfl

/-- A missing remote file empties the local one. -/
theorem get_refusal_truncates :
    ¬ Settles ((Operation.get ready (some [97]) dumpPath).link readable fun _ => none)
      (restLink (GetOpt.returned .FAILURE (some [97])) readable fun _ => none) := by
  intro h
  have hmissing := get_missing ready readable (fun _ => none) (some [97]) dumpPath ⟨rfl, rfl⟩ rfl
  cases settles_inj _ _ _ h hmissing

end Operation

end Natc.Agent
