import Natc.Agent.Host

/-!
# The transfer of `PUT`

Host and target each count down the announced size. The two loops stay together as long as the
target writes what it is sent.
-/

namespace Natc.Agent

open Lib Lib.Link

/-- How much of `count` bytes a write takes. -/
def WriteOutcome.accepts (count : Nat) : WriteOutcome → Nat
  | .full => count
  | .short k => min k (count - 1)
  | .error => 0

theorem write_of_nonneg (sBuf : Bytes) (count : Nat) (o : WriteOutcome) :
    write sBuf count o =
      (if o = .error then -1 else (o.accepts count : Int), sBuf.take (o.accepts count)) := by
  cases o <;> simp [write, WriteOutcome.accepts]

theorem accepts_le (count : Nat) (o : WriteOutcome) : o.accepts count ≤ count := by
  cases o with
  | full => exact Nat.le_refl count
  | short k => exact Nat.le_trans (Nat.min_le_right _ _) (Nat.sub_le _ _)
  | error => exact Nat.zero_le count

/-- Only a full write takes everything. -/
theorem accepts_eq_iff {count : Nat} (hcount : 0 < count) (o : WriteOutcome) :
    o.accepts count = count ↔ o = .full := by
  cases o <;> simp [WriteOutcome.accepts] <;> omega

/-- The number of messages for an announced size. -/
def rounds (n : Int) : Nat := (n.toNat + (MAX_BUF_SIZE - 1)) / MAX_BUF_SIZE

theorem rounds_of_nonpos {n : Int} (h : n ≤ 0) : rounds n = 0 := by
  simp [rounds, MAX_BUF_SIZE]
  omega

theorem rounds_of_le {n : Int} (hpos : 0 < n) (hle : n ≤ MAX_BUF_SIZE) : rounds n = 1 := by
  simp only [rounds, MAX_BUF_SIZE] at *
  omega

theorem rounds_of_lt {n : Int} (h : MAX_BUF_SIZE < n) : rounds n = rounds (n - MAX_BUF_SIZE) + 1 := by
  simp only [rounds, MAX_BUF_SIZE] at *
  omega

/-- What `k` writes from the `i`-th on take of a file of `length` bytes. -/
def accepted (os : TargetOs) : Nat → Nat → Nat → Nat
  | _, _, 0 => 0
  | length, i, k + 1 =>
      (os.writes i).accepts (min MAX_BUF_SIZE length) +
        accepted os (length - MAX_BUF_SIZE) (i + 1) k

/-- The messages for the size `n` bring the target the `m` bytes it expects: no write fails, the
last one is full, and together they take enough. -/
structure Absorbs (os : TargetOs) (length : Nat) (n m : Int) (i : Nat) : Prop where
  noError : ∀ j < rounds n, os.writes (i + j) ≠ .error
  last : rounds n ≠ 0 → os.writes (i + (rounds n - 1)) = .full
  enough : m ≤ accepted os length i (rounds n)

section Absorbs

variable {os : TargetOs} {length i : Nat} {n m : Int}

theorem absorbs_last_iff (hpos : 0 < n) (hle : n ≤ MAX_BUF_SIZE) :
    Absorbs os length n m i ↔ os.writes i = .full ∧ m ≤ min MAX_BUF_SIZE length := by
  have hone := rounds_of_le hpos hle
  constructor
  · intro h
    have hfull : os.writes i = .full := by simpa [hone] using h.last (by simp [hone])
    have henough := h.enough
    rw [hone, accepted, accepted, hfull] at henough
    exact ⟨hfull, henough⟩
  · rintro ⟨hfull, hm⟩
    refine ⟨fun j hj => ?_, fun _ => by simp [hone, hfull], ?_⟩
    · obtain rfl : j = 0 := by omega
      simp [hfull]
    · rw [hone, accepted, accepted, hfull]
      exact hm

theorem absorbs_more_iff (hlt : MAX_BUF_SIZE < n) (hlen : n ≤ length) :
    Absorbs os length n m i ↔ os.writes i ≠ .error ∧
      Absorbs os (length - MAX_BUF_SIZE) (n - MAX_BUF_SIZE)
        (m - (os.writes i).accepts MAX_BUF_SIZE) (i + 1) := by
  have hrounds := rounds_of_lt hlt
  have hpos : rounds (n - MAX_BUF_SIZE) ≠ 0 := by
    simp only [rounds, MAX_BUF_SIZE] at *
    omega
  have hmin : min MAX_BUF_SIZE length = MAX_BUF_SIZE := by omega
  constructor
  · intro h
    refine ⟨by simpa using h.noError 0 (by omega), fun j hj => ?_, fun _ => ?_, ?_⟩
    · have := h.noError (j + 1) (by omega)
      rwa [show i + 1 + j = i + (j + 1) by omega]
    · have := h.last (by omega)
      rwa [hrounds, show i + (rounds (n - MAX_BUF_SIZE) + 1 - 1) =
        i + 1 + (rounds (n - MAX_BUF_SIZE) - 1) by omega] at this
    · have := h.enough
      rw [hrounds, accepted, hmin] at this
      omega
  · rintro ⟨herr, h⟩
    refine ⟨fun j hj => ?_, fun _ => ?_, ?_⟩
    · cases j with
      | zero => exact herr
      | succ j =>
        have := h.noError j (by omega)
        rwa [show i + 1 + j = i + (j + 1) by omega] at this
    · have := h.last hpos
      rwa [hrounds, show i + (rounds (n - MAX_BUF_SIZE) + 1 - 1) =
        i + 1 + (rounds (n - MAX_BUF_SIZE) - 1) by omega]
    · have := h.enough
      rw [hrounds, accepted, hmin]
      omega

theorem accepted_le (os : TargetOs) (length i k : Nat) : accepted os length i k ≤ length := by
  induction k generalizing length i with
  | zero => simp [accepted]
  | succ k ih =>
    have hhead := accepts_le (min MAX_BUF_SIZE length) (os.writes i)
    have htail := ih (length - MAX_BUF_SIZE) (i + 1)
    rw [accepted]
    omega

/-- For a file that is as long as announced, all writes have to be full. -/
theorem absorbs_iff_full (k : Nat) (hk : rounds n = k) (hlen : n = length) :
    Absorbs os length n n i ↔ ∀ j < k, os.writes (i + j) = .full := by
  induction k generalizing length n i with
  | zero =>
    have hn : n ≤ 0 := by
      by_contra hn
      simp only [rounds, MAX_BUF_SIZE] at hk
      omega
    exact iff_of_true ⟨by simp [hk], by simp [hk], by omega⟩ (by simp)
  | succ k ih =>
    have hpos : 0 < n := by
      by_contra hn
      simp [rounds_of_nonpos (by omega : n ≤ 0)] at hk
    by_cases hle : n ≤ MAX_BUF_SIZE
    · obtain rfl : k = 0 := by have := rounds_of_le hpos hle; omega
      rw [absorbs_last_iff hpos hle]
      constructor
      · rintro ⟨hfull, _⟩ j hj
        obtain rfl : j = 0 := by omega
        exact hfull
      · exact fun h => ⟨h 0 (by omega), by omega⟩
    · have hlt : MAX_BUF_SIZE < n := by omega
      have hround := rounds_of_lt hlt
      have hsize : n - MAX_BUF_SIZE = ((length - MAX_BUF_SIZE : Nat) : Int) := by omega
      have ih := ih (i := i + 1) (by omega) hsize
      have hshift : (∀ j < k, os.writes (i + 1 + j) = .full) ↔
          ∀ j < k, os.writes (i + (j + 1)) = .full := by
        simp only [show ∀ j, i + 1 + j = i + (j + 1) by omega]
      rw [absorbs_more_iff hlt (by omega), Nat.forall_lt_succ_left, ← hshift, ← ih]
      constructor
      · rintro ⟨_, h⟩
        -- what the rest takes is at most what is left of the file
        have hrest := accepted_le os (length - MAX_BUF_SIZE) (i + 1) (rounds (n - MAX_BUF_SIZE))
        have hall := accepts_le MAX_BUF_SIZE (os.writes i)
        have henough := h.enough
        have heq : (os.writes i).accepts MAX_BUF_SIZE = MAX_BUF_SIZE := by omega
        rw [heq] at h
        exact ⟨(accepts_eq_iff (by decide) _).mp heq, h⟩
      · rintro ⟨hfull, h⟩
        simp only [Nat.add_zero] at hfull
        rw [hfull]
        exact ⟨by simp, h⟩

end Absorbs

section Files

variable (files : Files) (name bs : Bytes) (content : Option Bytes)

@[simp] theorem Files.set_same : files.set name content name = content := if_pos rfl

@[simp] theorem Files.create_same : files.create name name = some [] := if_pos rfl

theorem Files.append_same {old : Bytes} (h : files name = some old) :
    files.append name bs name = some (old ++ bs) := by
  simp [append, h]

end Files

section Rounds

variable {hos : HostOs} {os : TargetOs} {files : Files} {name rest : Bytes} {n m : Int} {i : Nat}

/-- The connection at the start of a round of the two loops. -/
def putRound (os : TargetOs) (files : Files) (name rest : Bytes) (n m : Int) (i : Nat) :
    Link putHost (target os) :=
  ⟨putRead Opt.SUCCESS.code rest n, waitAt files (.putHeader name m i), [], []⟩

private theorem reach_data (sBuf : Bytes) (hbuf : rest.take MAX_BUF_SIZE = sBuf) (hne : sBuf ≠ [])
    {d : Link putHost (target os)}
    (h : Reach ⟨.await (if n - sBuf.length ≤ 0 then PutOpt.last
        else PutOpt.more (rest.drop MAX_BUF_SIZE) (n - sBuf.length)),
      putData os files name m i sBuf, [], []⟩ d) :
    Reach (putRound os files name rest n m i) d := by
  have hlen : sBuf.length < 2 ^ 31 := by
    have := List.length_take_le MAX_BUF_SIZE rest
    rw [hbuf, MAX_BUF_SIZE] at this
    omega
  rw [putRound, putRead]
  simp only [hbuf, hne, if_false]
  exact reach_messageRight rfl rfl (reach_messageRight rfl (Header.size_ofBytes _ _ hlen) h)

/-- What the target does with a message while it expects more bytes. -/
private theorem putData_of_pos (os : TargetOs) (files : Files) (name : Bytes) (i : Nat)
    (sBuf : Bytes) (hne : sBuf ≠ []) (hm : 0 < m) :
    putData os files name m i sBuf =
      let accepts := (os.writes i).accepts (min m.toNat sBuf.length)
      let files := files.append name (sBuf.take accepts)
      if os.writes i = .error then
        .send (Header.bytes ⟨Opt.FAILURE.code, sizeofMessage⟩) <|
          .send putError.bytes (waitAt files .request)
      else if m ≤ accepts then reply .SUCCESS (waitAt files .request)
      else reply .SUCCESS (waitAt files (.putHeader name (m - accepts) (i + 1))) := by
  have hcount : (if m < sBuf.length then m else (sBuf.length : Int)) =
      ((min m.toNat sBuf.length : Nat) : Int) := by
    split <;> omega
  simp only [putData, hne, if_false, hcount, write_of_nonneg]
  by_cases herr : os.writes i = .error
  · simp only [herr, if_true, WriteOutcome.accepts]
    rw [if_neg (by omega)]
  · simp only [herr, if_false]
    by_cases hdone : m ≤ (os.writes i).accepts (min m.toNat sBuf.length)
    · rw [if_pos (by omega), if_pos hdone]
    · rw [if_neg (by omega), if_neg (by omega), if_neg hdone]

private theorem take_ne_nil (hpos : 0 < n) (hlen : n ≤ rest.length) :
    rest.take MAX_BUF_SIZE ≠ [] := by
  have : rest ≠ [] := by
    rintro rfl
    simp at hlen
    omega
  simp [MAX_BUF_SIZE, this]

private theorem length_take_of_lt (hlt : MAX_BUF_SIZE < n) (hlen : n ≤ rest.length) :
    (rest.take MAX_BUF_SIZE).length = MAX_BUF_SIZE := by
  rw [List.length_take]
  omega

/-- A round in the middle of the transfer. -/
private theorem reach_more (hlt : MAX_BUF_SIZE < n) (hlen : n ≤ rest.length) (hm : n ≤ m)
    (hok : os.writes i ≠ .error) {d : Link putHost (target os)}
    (h : Reach (putRound os
      (files.append name ((rest.take MAX_BUF_SIZE).take ((os.writes i).accepts MAX_BUF_SIZE)))
      name (rest.drop MAX_BUF_SIZE) (n - MAX_BUF_SIZE)
      (m - (os.writes i).accepts MAX_BUF_SIZE) (i + 1)) d) :
    Reach (putRound os files name rest n m i) d := by
  have hpos : 0 < n := by omega
  have hbuf := length_take_of_lt hlt hlen
  have haccepts := accepts_le MAX_BUF_SIZE (os.writes i)
  refine reach_data _ rfl (take_ne_nil hpos hlen) ?_
  rw [putData_of_pos _ _ _ _ _ (take_ne_nil hpos hlen) (by omega), hbuf, if_neg (by omega),
    show min m.toNat MAX_BUF_SIZE = MAX_BUF_SIZE by omega]
  simp only [hok, if_false]
  rw [if_neg (by omega)]
  refine reach_messageLeft rfl rfl ?_
  simp only [Header.type_ofBytes, Opt.code_inj, reduceCtorEq, if_false]
  exact h

/-- A write fails in the middle of the transfer: the host does not read the message. -/
private theorem reach_fail (hlt : MAX_BUF_SIZE < n) (hlen : n ≤ rest.length) (hm : n ≤ m)
    (herr : os.writes i = .error) :
    Reach (putRound os files name rest n m i)
      ⟨.await (PutOpt.returned .FAILURE), waitAt (files.append name []) .request, [],
        putError.bytes⟩ := by
  have hpos : 0 < n := by omega
  refine reach_data _ rfl (take_ne_nil hpos hlen) ?_
  rw [putData_of_pos _ _ _ _ _ (take_ne_nil hpos hlen) (by omega), length_take_of_lt hlt hlen,
    if_neg (by omega)]
  simp only [herr, if_true, WriteOutcome.accepts, List.take_zero]
  refine reach_messageLeft rfl rfl ?_
  simp only [Header.type_ofBytes, if_true]
  exact reach_sendRight .refl

/-- The last round, up to the reply of the target. -/
private theorem reach_last (hpos : 0 < n) (hle : n ≤ MAX_BUF_SIZE) (hlen : n ≤ rest.length)
    {d : Link putHost (target os)}
    (h : Reach ⟨.await PutOpt.last, putData os files name m i (rest.take MAX_BUF_SIZE), [], []⟩ d) :
    Reach (putRound os files name rest n m i) d := by
  refine reach_data _ rfl (take_ne_nil hpos hlen) ?_
  rwa [if_pos (by rw [List.length_take]; omega)]

/-- A run in which the target absorbs the messages comes to its last reply. -/
theorem put_absorbed {old : Bytes} (h : Absorbs os rest.length n m i) (hpos : 0 < n)
    (hlen : n ≤ rest.length) (hm : n ≤ m) (hold : files name = some old) :
    ∃ files' new, files' name = some new ∧ (new.length : Int) = old.length + m ∧
      ((∀ j < rounds n, os.writes (i + j) = .full) → m = n → new = old ++ rest.take n.toNat) ∧
      Reach (putRound os files name rest n m i)
        ⟨.await PutOpt.last, reply .SUCCESS (waitAt files' .request), [], []⟩ := by
  induction hk : rounds n generalizing files rest n m i old with
  | zero =>
    simp only [rounds, MAX_BUF_SIZE] at hk
    omega
  | succ k ih =>
    by_cases hle : n ≤ MAX_BUF_SIZE
    · obtain ⟨hfull, henough⟩ := (absorbs_last_iff hpos hle).mp h
      have hcount : min m.toNat (rest.take MAX_BUF_SIZE).length = m.toNat := by
        rw [List.length_take]
        omega
      refine ⟨files.append name ((rest.take MAX_BUF_SIZE).take m.toNat), _,
        Files.append_same _ _ _ hold, ?_, fun _ hmn => ?_, reach_last hpos hle hlen ?_⟩
      · simp only [List.length_append, List.length_take]
        omega
      · rw [hmn, List.take_take, show min n.toNat MAX_BUF_SIZE = n.toNat by omega]
      · rw [putData_of_pos _ _ _ _ _ (take_ne_nil hpos hlen) (by omega), hcount]
        simp only [hfull, WriteOutcome.accepts, reduceCtorEq, if_false]
        rw [if_pos (by omega)]
        exact .refl
    · have hlt : MAX_BUF_SIZE < n := by omega
      obtain ⟨hok, hrest⟩ := (absorbs_more_iff hlt hlen).mp h
      have hround := rounds_of_lt hlt
      have haccepts := accepts_le MAX_BUF_SIZE (os.writes i)
      have hbuf := length_take_of_lt hlt hlen
      rw [← List.length_drop] at hrest
      have hdrop := List.length_drop (i := MAX_BUF_SIZE) (l := rest)
      obtain ⟨files', new, hnew, hlength, hexact, hreach⟩ := ih hrest (by omega) (by omega)
        (by omega) (Files.append_same _ _ _ hold) (by omega)
      refine ⟨files', new, hnew, ?_, fun hfull hmn => ?_, reach_more hlt hlen hm hok hreach⟩
      · rw [hlength, List.length_append, List.length_take, hbuf]
        omega
      · have hhead : os.writes i = .full := by simpa using hfull 0 (by omega)
        have htail : ∀ j < k, os.writes (i + 1 + j) = .full := fun j hj => by
          rw [show i + 1 + j = i + (j + 1) by omega]
          exact hfull (j + 1) (by omega)
        simp only [hhead, WriteOutcome.accepts] at hexact
        have hn : n.toNat = MAX_BUF_SIZE + (n - MAX_BUF_SIZE).toNat := by omega
        rw [hexact htail (by omega), List.take_take, Nat.min_self, List.append_assoc, hn,
          List.take_add]

/-- The host has returned `sRc` while the target is elsewhere or bytes are unread, and the file has
not come to `limit` bytes. -/
structure Apart (os : TargetOs) (name : Bytes) (sRc : Opt) (limit : Int)
    (c : Link putHost (target os)) : Prop where
  quiescent : Quiescent c
  returned : c.left = .await (PutOpt.returned sRc)
  apart : ¬ AtRest c
  file : ∃ new, c.right.label.files name = some new ∧ new.length < limit

private theorem quiescent_returned (sRc : Opt) (files : Files) (pc : TargetPc) (unread : Bytes)
    (hpc : ∀ l k, (target os).recv ⟨files, pc⟩ = some (l, k) → 0 < l) :
    Quiescent (⟨.await (PutOpt.returned sRc), waitAt files pc, [], unread⟩ :
      Link putHost (target os)) := by
  refine quiescent_of_blocked (fun l k h => by cases h) fun l k h => .inr ?_
  simpa using hpc l k h

private theorem apart_of_unread {sRc : Opt} {new : Bytes} {limit : Int}
    (hnew : files name = some new) (hlimit : new.length < limit) :
    Apart os name sRc limit
      ⟨.await (PutOpt.returned sRc), waitAt files .request, [], putError.bytes⟩ where
  quiescent := quiescent_returned _ _ _ _ fun l k h => by cases h; decide
  returned := rfl
  apart h := by
    have hempty := congrArg List.length h.toHost
    rw [CharArray.length_bytes] at hempty
    cases hempty
  file := ⟨new, hnew, hlimit⟩

private theorem apart_of_waiting {sRc : Opt} {new : Bytes} {limit : Int} (m : Int) (i : Nat)
    (hnew : files name = some new) (hlimit : new.length < limit) :
    Apart os name sRc limit
      ⟨.await (PutOpt.returned sRc), waitAt files (.putHeader name m i), [], []⟩ where
  quiescent := quiescent_returned _ _ _ _ fun l k h => by cases h; decide
  returned := rfl
  apart h := by
    obtain ⟨files', h⟩ := h.request
    cases h
  file := ⟨new, hnew, hlimit⟩

/-- Otherwise the host returns at the wrong moment. -/
theorem put_lost {old : Bytes} (h : ¬ Absorbs os rest.length n m i) (hpos : 0 < n)
    (hlen : n ≤ rest.length) (hm : n ≤ m) (hold : files name = some old) :
    ∃ sRc c, Reach (putRound os files name rest n m i) c ∧
      Apart os name sRc (old.length + m) c ∧
      (sRc = .SUCCESS ↔ ∀ j, j + 1 < rounds n → os.writes (i + j) ≠ .error) := by
  induction hk : rounds n generalizing files rest n m i old with
  | zero =>
    simp only [rounds, MAX_BUF_SIZE] at hk
    omega
  | succ k ih =>
    by_cases hle : n ≤ MAX_BUF_SIZE
    · -- the host returns with the reply to its last message, whatever it is
      have hone := rounds_of_le hpos hle
      have hsuccess : Opt.SUCCESS = .SUCCESS ↔ ∀ j, j + 1 < k + 1 → os.writes (i + j) ≠ .error :=
        iff_of_true rfl fun j hj => by omega
      rw [absorbs_last_iff hpos hle] at h
      have hdata := putData_of_pos os files name i _ (take_ne_nil hpos hlen) (by omega : 0 < m)
      set c := min m.toNat (rest.take MAX_BUF_SIZE).length with hc
      have haccepts := accepts_le c (os.writes i)
      rw [List.length_take] at hc
      have hfile := Files.append_same files name
        ((rest.take MAX_BUF_SIZE).take ((os.writes i).accepts c)) hold
      have hcpos : 0 < c := by omega
      have hshort : ¬ m ≤ (os.writes i).accepts c := fun hfull =>
        h ⟨(accepts_eq_iff hcpos _).mp (by omega), by omega⟩
      have hlimit : ((old ++ (rest.take MAX_BUF_SIZE).take ((os.writes i).accepts c)).length : Int) <
          old.length + m := by
        rw [List.length_append, List.length_take, List.length_take]
        omega
      by_cases herr : os.writes i = .error
      · refine ⟨.SUCCESS, _, reach_last hpos hle hlen ?_, apart_of_unread hfile hlimit, hsuccess⟩
        rw [hdata]
        simp only [herr, if_true]
        exact reach_messageLeft rfl rfl (reach_sendRight .refl)
      · refine ⟨.SUCCESS, _, reach_last hpos hle hlen ?_,
          apart_of_waiting (m - (os.writes i).accepts c) (i + 1) hfile hlimit, hsuccess⟩
        rw [hdata]
        simp only [herr, if_false, hshort]
        exact reach_messageLeft rfl rfl .refl
    · have hlt : MAX_BUF_SIZE < n := by omega
      have hround := rounds_of_lt hlt
      by_cases herr : os.writes i = .error
      · refine ⟨.FAILURE, _, reach_fail hlt hlen hm herr,
          apart_of_unread (Files.append_same _ _ _ hold) (by simp; omega), ?_⟩
        have hk : 0 < k := by
          simp only [rounds, MAX_BUF_SIZE] at hround hlt hk
          omega
        exact iff_of_false (by simp) fun hall => hall 0 (by omega) herr
      · have hbuf := length_take_of_lt hlt hlen
        have haccepts := accepts_le MAX_BUF_SIZE (os.writes i)
        have hdrop := List.length_drop (i := MAX_BUF_SIZE) (l := rest)
        rw [absorbs_more_iff hlt hlen, ← hdrop] at h
        obtain ⟨sRc, c, hreach, hapart, hrc⟩ := ih (fun hrest => h ⟨herr, hrest⟩) (by omega)
          (by omega) (by omega) (Files.append_same _ _ _ hold) (by omega)
        refine ⟨sRc, c, reach_more hlt hlen hm herr hreach, ?_, hrc.trans ?_⟩
        · rw [List.length_append, List.length_take, hbuf] at hapart
          have hlimit : (((old.length + min ((os.writes i).accepts MAX_BUF_SIZE) MAX_BUF_SIZE : Nat) :
              Int) + (m - (os.writes i).accepts MAX_BUF_SIZE)) = old.length + m := by omega
          rwa [hlimit] at hapart
        · constructor
          · intro hall j hj
            cases j with
            | zero => exact herr
            | succ j =>
              rw [show i + (j + 1) = i + 1 + j by omega]
              exact hall j (by omega)
          · intro hall j hj
            rw [show i + 1 + j = i + (j + 1) by omega]
            exact hall (j + 1) (by omega)

end Rounds

section Operation

variable (hos : HostOs) (os : TargetOs) (files : Files) (content : Bytes) (name : CharArray)

/-- The announced size. -/
def announced (content : Bytes) : Int := toInt32 content.length

/-- Memory and files of both sides are at hand. -/
def Opened : Prop :=
  hos.malloc ∧ hos.opens ∧ os.malloc ∧ os.opensWrite name.chars

instance : Decidable (Opened hos os name) := inferInstanceAs (Decidable (_ ∧ _))

theorem toInt32_announced : toInt32 (announced content) = announced content := by
  rw [announced, toInt32_toInt32]

theorem announced_le : announced content ≤ content.length := by
  rw [announced, toInt32, Int.bmod_def]
  split <;> omega

theorem announced_of_lt (h : content.length < 2 ^ 31) : announced content = content.length :=
  toInt32_of_range _ (by omega) (by omega)

theorem announced_lt : announced content < 2 ^ 31 := by
  rw [announced, toInt32, Int.bmod_def]
  split <;> omega

private theorem reach_putFile (hmalloc : hos.malloc) (hopens : hos.opens)
    {d : Link putHost (target os)}
    (h : Reach ⟨.await (PutOpt.reply content (announced content)),
      putFile os files (FileInfo.bytes ⟨name, announced content⟩), [], []⟩ d) :
    Reach ((Operation.put hos content name).link os files) d := by
  change Reach ⟨putOpt hos content name, waitAt files .request, [], []⟩ d
  simp only [putOpt, hmalloc, hopens, Bool.not_true, Bool.or_self, Bool.false_eq_true, if_false]
  refine reach_messageRight rfl rfl ?_
  simp only [request, Header.type_ofBytes, Opt.ofCode?_code]
  refine reach_messageRight rfl ?_ h
  rw [FileInfo.length_bytes]
  rfl

private theorem putFile_eq :
    putFile os files (FileInfo.bytes ⟨name, announced content⟩) =
      if os.malloc ∧ os.opensWrite name.chars then
        reply .SUCCESS (waitAt (files.create name.chars)
          (if announced content = 0 then .request
            else .putHeader name.chars (announced content) 0))
      else reply .FAILURE (waitAt files .request) := by
  have hsize : fileInfoSize (FileInfo.bytes ⟨name, announced content⟩) = announced content := by
    rw [FileInfo.fileInfoSize_bytes, announced, toInt32_toInt32]
  simp only [putFile, hsize, FileInfo.cString_bytes]
  cases os.malloc <;> cases os.opensWrite name.chars <;> simp
  split <;> rfl

/-- The opened transfer comes to its first round. -/
private theorem reach_putRound (hopened : Opened hos os name) (hsize : announced content ≠ 0)
    {d : Link putHost (target os)}
    (h : Reach (putRound os (files.create name.chars) name.chars content (announced content)
      (announced content) 0) d) :
    Reach ((Operation.put hos content name).link os files) d := by
  obtain ⟨hmalloc, hopens, htarget⟩ := hopened
  refine reach_putFile hos os files content name hmalloc hopens ?_
  rw [putFile_eq, if_pos htarget, if_neg hsize]
  refine reach_messageLeft rfl rfl ?_
  simp only [Header.type_ofBytes, Opt.code_inj, reduceCtorEq, if_false, hsize]
  exact h

/-- A negative size: the target takes the first message for the whole file. -/
private theorem reach_negative {n : Int} {rest : Bytes} {fileName : Bytes} (hneg : n < 0)
    (hrest : rest ≠ []) :
    Reach (putRound os files fileName rest n n 0)
      ⟨.await PutOpt.last, reply .SUCCESS (waitAt (files.append fileName []) .request), [], []⟩ := by
  have hne : rest.take MAX_BUF_SIZE ≠ [] := by simp [MAX_BUF_SIZE, hrest]
  refine reach_data _ rfl hne ?_
  rw [if_pos (by omega)]
  have hcount : n < (rest.take MAX_BUF_SIZE).length := by omega
  simp only [putData, hne, if_false, hcount, if_true, write, hneg]
  rw [if_pos (by omega)]
  exact .refl

private theorem put_refused (h : ¬ Opened hos os name) :
    Settles ((Operation.put hos content name).link os files)
      (restLink (PutOpt.returned .FAILURE) os files) := by
  by_cases hhost : hos.malloc ∧ hos.opens
  · obtain ⟨hmalloc, hopens⟩ := hhost
    have htarget : ¬ (os.malloc ∧ os.opensWrite name.chars) :=
      fun htarget => h ⟨hmalloc, hopens, htarget⟩
    refine settles_restLink rfl (.of_reach (reach_putFile hos os files content name hmalloc hopens
      .refl) ?_)
    rw [putFile_eq, if_neg htarget]
    refine answered_reply .FAILURE rfl ?_
    simp only [Header.type_ofBytes, if_true]
    rfl
  · have hstart : (Operation.put hos content name).link os files =
        restLink (PutOpt.returned .FAILURE) os files := by
      change (⟨putOpt hos content name, _, _, _⟩ : Link putHost (target os)) = _
      rw [putOpt, if_pos (by simpa [imp_iff_not_or] using hhost)]
      rfl
    rw [hstart]
    exact .of_quiescent (quiescent_restLink rfl)

private theorem put_empty (hopened : Opened hos os name) (hsize : announced content = 0) :
    Settles ((Operation.put hos content name).link os files)
      (restLink (PutOpt.returned .SUCCESS) os (files.create name.chars)) := by
  obtain ⟨hmalloc, hopens, htarget⟩ := hopened
  refine settles_restLink rfl (.of_reach (reach_putFile hos os files content name hmalloc hopens
    .refl) ?_)
  rw [putFile_eq, if_pos htarget, if_pos hsize]
  refine answered_reply .SUCCESS rfl ?_
  simp only [Header.type_ofBytes, Opt.code_inj, reduceCtorEq, if_false, hsize, if_true]
  rfl

private theorem put_negative (hopened : Opened hos os name) (hneg : announced content < 0) :
    Settles ((Operation.put hos content name).link os files)
      (restLink (PutOpt.returned .SUCCESS) os
        ((files.create name.chars).append name.chars [])) := by
  have hcontent : content ≠ [] := by
    rintro rfl
    simp [announced_of_lt] at hneg
  exact settles_restLink rfl (.of_reach
    (reach_putRound hos os files content name hopened (by omega)
      (reach_negative os _ hneg hcontent))
    (answered_reply .SUCCESS rfl rfl))

/-- The operation leaves the connection at rest if a file cannot be opened or the target absorbs
the messages. -/
theorem put_settles (h : Opened hos os name →
      Absorbs os content.length (announced content) (announced content) 0) :
    ∃ sRc files',
      Settles ((Operation.put hos content name).link os files)
        (restLink (PutOpt.returned sRc) os files') ∧
      (sRc = .SUCCESS ↔ Opened hos os name) ∧
      (Opened hos os name → ∃ new, files' name.chars = some new ∧
        (new.length : Int) = max (announced content) 0 ∧
        ((∀ j < rounds (announced content), os.writes j = .full) →
          new = content.take (announced content).toNat)) := by
  by_cases hopened : Opened hos os name
  · have hsuccess : Opt.SUCCESS = .SUCCESS ↔ Opened hos os name := iff_of_true rfl hopened
    rcases Int.lt_trichotomy (announced content) 0 with hneg | hzero | hpos
    · refine ⟨.SUCCESS, _, put_negative hos os files content name hopened hneg, hsuccess,
        fun _ => ⟨[], Files.append_same _ _ _ (Files.create_same _ _), ?_, fun _ => ?_⟩⟩
      · rw [List.length_nil]
        omega
      · rw [Int.toNat_of_nonpos (by omega), List.take_zero]
    · refine ⟨.SUCCESS, _, put_empty hos os files content name hopened hzero, hsuccess,
        fun _ => ⟨[], Files.create_same _ _, ?_, fun _ => ?_⟩⟩
      · rw [List.length_nil]
        omega
      · rw [hzero, Int.toNat_zero, List.take_zero]
    · obtain ⟨files', new, hnew, hlength, hexact, hreach⟩ := put_absorbed (h hopened) hpos
        (announced_le content) (Int.le_refl _) (files.create_same name.chars)
      refine ⟨.SUCCESS, files', settles_restLink rfl (.of_reach
        (reach_putRound hos os files content name hopened (by omega) hreach)
        (answered_reply .SUCCESS rfl rfl)), hsuccess, fun _ => ⟨new, hnew, ?_, fun hfull => ?_⟩⟩
      · rw [List.length_nil] at hlength
        omega
      · have hwrites : ∀ j < rounds (announced content), os.writes (0 + j) = .full :=
          fun j hj => by rw [Nat.zero_add]; exact hfull j hj
        rw [hexact hwrites rfl, List.nil_append]
  · exact ⟨.FAILURE, files, put_refused hos os files content name hopened,
      iff_of_false (by simp) hopened, fun h => absurd h hopened⟩

/-- Otherwise the host comes apart from the target. -/
theorem put_apart (hopened : Opened hos os name)
    (h : ¬ Absorbs os content.length (announced content) (announced content) 0) :
    ∃ sRc c, Reach ((Operation.put hos content name).link os files) c ∧
      Apart os name.chars sRc (announced content) c ∧
      (sRc = .SUCCESS ↔
        ∀ j, j + 1 < rounds (announced content) → os.writes j ≠ .error) := by
  have hpos : 0 < announced content := by
    by_contra hpos
    have hnone := rounds_of_nonpos (by omega : announced content ≤ 0)
    exact h ⟨by simp [hnone], by simp [hnone], by omega⟩
  obtain ⟨sRc, c, hreach, hapart, hrc⟩ := put_lost h hpos (announced_le content) (Int.le_refl _)
    (files.create_same name.chars)
  refine ⟨sRc, c, reach_putRound hos os files content name hopened (by omega) hreach, ?_, ?_⟩
  · rw [List.length_nil] at hapart
    simpa using hapart
  · simpa only [Nat.zero_add] using hrc

/-- What the target's file is worth when the host reports success: it is the source file if and
only if no transfer took place, a write before the last one failed, or the size fits and all writes
were full. -/
theorem put_exact_iff :
    (∀ c, Reach ((Operation.put hos content name).link os files) c →
        c.left = .await (PutOpt.returned .SUCCESS) →
        c.right.label.files name.chars = some content) ↔
      (Opened hos os name →
        (∃ j, j + 1 < rounds (announced content) ∧ os.writes j = .error) ∨
          content.length < 2 ^ 31 ∧ ∀ j < rounds (announced content), os.writes j = .full) := by
  have hended : ∀ sRc (c : Link putHost (target os)), c.left = .await (PutOpt.returned sRc) →
      putHost.Ended c.left := fun sRc c h => ⟨_, h, rfl⟩
  constructor
  · intro hexact hopened
    by_cases habsorbs : Absorbs os content.length (announced content) (announced content) 0
    · right
      obtain ⟨sRc, files', hsettles, hsuccess, hfile⟩ :=
        put_settles hos os files content name fun _ => habsorbs
      obtain ⟨new, hnew, hlength, _⟩ := hfile hopened
      have hcontent := hexact _ hsettles.reach (by rw [hsuccess.mpr hopened]; rfl)
      obtain rfl : new = content := Option.some.inj (hnew.symm.trans hcontent)
      have hsize : announced new = new.length := by
        by_cases hlt : new.length < 2 ^ 31
        · exact announced_of_lt new hlt
        · omega
      have hlt := announced_lt new
      rw [hsize] at hlt habsorbs ⊢
      have hfull := (absorbs_iff_full _ rfl rfl).mp habsorbs
      exact ⟨by omega, by simpa only [Nat.zero_add] using hfull⟩
    · obtain ⟨sRc, c, hreach, hapart, hrc⟩ := put_apart hos os files content name hopened habsorbs
      by_contra hnot
      have hsuccess : sRc = .SUCCESS :=
        hrc.mpr fun j hj herr => hnot (.inl ⟨j, hj, herr⟩)
      obtain ⟨new, hnew, hlength⟩ := hapart.file
      have hcontent := hexact c hreach (hsuccess ▸ hapart.returned)
      obtain rfl : new = content := Option.some.inj (hnew.symm.trans hcontent)
      have hle := announced_le new
      omega
  · intro hcond c hc hleft
    by_cases hopened : Opened hos os name
    · rcases hcond hopened with ⟨j, hj, herr⟩ | ⟨hlt, hfull⟩
      · have hlost : ¬ Absorbs os content.length (announced content) (announced content) 0 :=
          fun h => h.noError j (by omega) (by simpa using herr)
        obtain ⟨sRc, d, hreach, hapart, hrc⟩ := put_apart hos os files content name hopened hlost
        have hd := left_of_ended (reach_quiescent hreach hapart.quiescent hc) (hended _ _ hleft)
        rw [hapart.returned, hleft] at hd
        cases hd
        exact absurd herr (hrc.mp rfl j hj)
      · have hsize := announced_of_lt content hlt
        have habsorbs : Absorbs os content.length (announced content) (announced content) 0 := by
          rw [hsize]
          refine (absorbs_iff_full _ rfl rfl).mpr ?_
          simpa only [Nat.zero_add, hsize] using hfull
        obtain ⟨sRc, files', hsettles, _, hfile⟩ :=
          put_settles hos os files content name fun _ => habsorbs
        obtain ⟨new, hnew, _, hexact⟩ := hfile hopened
        obtain rfl := hsettles.unique c hc (hended _ _ hleft)
        refine hnew.trans (congrArg some ?_)
        rw [hexact hfull, hsize, Int.toNat_natCast, List.take_length]
    · obtain ⟨sRc, files', hsettles, hsuccess, _⟩ :=
        put_settles hos os files content name fun h => absurd h hopened
      obtain rfl := hsettles.unique c hc (hended _ _ hleft)
      cases hleft
      exact absurd (hsuccess.mp rfl) hopened

end Operation

/-- A target whose disk is full. -/
def diskFull : TargetOs where
  malloc := true
  opensRead _ := true
  opensWrite _ := true
  reads _ := .full
  writes _ := .error
  manages _ _ := false

/-- One byte for a full disk: the host does not look at the last reply. -/
theorem put_success_without_file :
    ∃ c : Link putHost (target diskFull),
      Reach ((Operation.put ⟨true, true, fun _ => .full⟩ [97]
        ⟨[102], by decide, by decide⟩).link diskFull fun _ => none) c ∧
      c.left = .await (PutOpt.returned .SUCCESS) ∧ c.right.label.files [102] ≠ some [97] := by
  have hlost : ¬ Absorbs diskFull 1 (announced [97]) (announced [97]) 0 :=
    fun h => h.noError 0 (by decide) rfl
  obtain ⟨sRc, c, hreach, hapart, hrc⟩ := put_apart ⟨true, true, fun _ => .full⟩ diskFull
    (fun _ => none) [97] ⟨[102], by decide, by decide⟩ ⟨rfl, rfl, rfl, rfl⟩ hlost
  obtain rfl : sRc = .SUCCESS := hrc.mpr fun j hj => by
    have hone : rounds (announced [97]) = 1 := by decide
    omega
  refine ⟨c, hreach, hapart.returned, fun hfile => ?_⟩
  obtain ⟨new, hnew, hlength⟩ := hapart.file
  obtain rfl : new = [97] := Option.some.inj (hnew.symm.trans hfile)
  exact absurd hlength (by decide)

end Natc.Agent
