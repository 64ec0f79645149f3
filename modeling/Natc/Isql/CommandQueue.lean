import Natc.Isql.BindCalls
import Natc.Isql.Command
import Natc.Lib.Recent

/-!
# The command history

`iSQLCommandQueue` keeps the last commands in the places 1 to 20 of an array. `none` is an access
past the end of an array or a buffer, or the overflow of a counter.
-/

namespace Natc.Isql

open Natc.Lib

/-- `COM_QUEUE_SIZE`. -/
def comQueueSize : Int := 21

structure CommandQueue where
  m_Queue : Fin 21 → Command
  m_CurHisNum : Int
  m_MaxHisNum : Int

namespace CommandQueue

/-- The queue as it is constructed, over the commands that the array begins with. -/
def new (m_Queue : Fin 21 → Command) : CommandQueue where
  m_Queue := m_Queue
  m_CurHisNum := -1
  m_MaxHisNum := 0

def place (i : Int) : Option (Fin 21) :=
  if h : 0 ≤ i ∧ i < comQueueSize then
    some ⟨i.toNat, by rw [comQueueSize] at h; omega⟩
  else none

variable (q : CommandQueue)

/-- The place of the command stored last. -/
def lastPlace : Int :=
  (if q.m_CurHisNum = 1 then comQueueSize else q.m_CurHisNum) - 1

/-- The second half of `iSQLCommandQueue::AddCommand`. -/
def store (a_Command : Command) : Option CommandQueue := do
  let i ← place q.m_CurHisNum
  if q.m_MaxHisNum + 1 < 2 ^ 31 then
    some {
      m_Queue := Function.update q.m_Queue i (a_Command.setAll (q.m_Queue i))
      m_CurHisNum := if q.m_CurHisNum = comQueueSize - 1 then 1 else q.m_CurHisNum + 1
      m_MaxHisNum := q.m_MaxHisNum + 1 }
  else none

/-- `iSQLCommandQueue::AddCommand`. -/
def addCommand (a_Command : Command) : Option CommandQueue :=
  if q.m_CurHisNum = -1 then
    { q with m_CurHisNum := 1 }.store a_Command
  else do
    let i ← place q.lastPlace
    if (q.m_Queue i).m_CommandStr = a_Command.m_CommandStr then some q else q.store a_Command

def run (cmds : List Command) : Option CommandQueue :=
  cmds.foldlM addCommand q

def noCommand : String := "Have no saved command.\n"

def wrongNumber : String := "History number have to between 1 and 20.\n"

/-- `iSQLCommandQueue::CheckHisNum`. -/
def checkHisNum (a_HisNum : Int) : Except String Unit :=
  if q.m_CurHisNum = -1 then .error noCommand
  else if a_HisNum < 0 ∨ a_HisNum > comQueueSize - 1 then .error wrongNumber
  else .ok ()

/-- `iSQLCommandQueue::GetCommand`: `a_Command` as it is afterwards, or what is printed. -/
def getCommand (a_HisNum : Int) (a_Command : Command) : Option (Except String Command) :=
  match q.checkHisNum a_HisNum with
  | .error text => some (.error text)
  | .ok () =>
    if a_HisNum = 0 then
      (place q.lastPlace).map fun i => .ok ((q.m_Queue i).setAll a_Command)
    else if a_HisNum > q.m_MaxHisNum then some (.error noCommand)
    else (place a_HisNum).map fun i => .ok ((q.m_Queue i).setAll a_Command)

/-! ## The listing -/

/-- The number of a command as `"%-2d : "` prints it. -/
def header (ix : Int) : Bytes :=
  let digits := (Nat.toDigits 10 ix.toNat).map fun d => d.toNat.toUInt8
  digits ++ List.replicate (2 - digits.length) space ++ [space, colon, space]

/-- The loop over the lines of a command: `m_tmpBuf2`, what of the line was passed, and the rest.
The last line takes the place of `m_tmpBuf2` if no newline ends it. -/
def layout (commandLen : Nat) : (m_tmpBuf2 line : Bytes) → Bytes → Option Bytes
  | _, line, [] => if line.length < commandLen then some line else none
  | m_tmpBuf2, line, c :: rest =>
      if c ≠ newline then layout commandLen m_tmpBuf2 (line ++ [c]) rest
      else if rest = [] then
        let text := m_tmpBuf2 ++ line ++ [newline]
        if text.length < commandLen then some text else none
      else
        let text := m_tmpBuf2 ++ line ++ newline :: List.replicate 5 space
        if text.length < commandLen then layout commandLen text [] rest else none

/-- What is printed for a place: the number, and the text of the command. -/
def display (commandLen : Nat) (ix : Int) : Option (Bytes × Bytes) := do
  let i ← place ix
  let m_tmpBuf := (q.m_Queue i).m_CommandStr
  if m_tmpBuf.length < commandLen then
    let text ← layout commandLen [] [] (eraseWhiteSpace m_tmpBuf)
    some (header ix, text)
  else none

/-- The loop of `DisplayHistory`, with the number of rounds left. -/
def displayFrom (commandLen : Nat) : Nat → Int → Option (List (Bytes × Bytes))
  | 0, _ => some []
  | left + 1, ix => do
      let printed ←
        if q.m_MaxHisNum ≥ ix ∨ q.m_MaxHisNum > comQueueSize - 1 then
          (q.display commandLen ix).map fun p => [p]
        else some []
      let rest ← displayFrom commandLen left (if ix = comQueueSize - 1 then 1 else ix + 1)
      some (printed ++ rest)

/-- `iSQLCommandQueue::DisplayHistory`. -/
def displayHistory (commandLen : Nat) : Option (Except String (List (Bytes × Bytes))) :=
  if q.m_CurHisNum = -1 then some (.error noCommand)
  else
    (q.displayFrom commandLen 20
      (if q.m_CurHisNum = comQueueSize - 1 then 1 else q.m_CurHisNum)).map .ok

/-! ## What the queue is for -/

/-- A command joins the history unless its text is that of the one before. -/
def record (stored : List Command) (c : Command) : List Command :=
  if stored.getLast?.map (·.m_CommandStr) = some c.m_CommandStr then stored else stored ++ [c]

/-- The commands that are stored. -/
def history (cmds : List Command) : List Command := cmds.foldl record []

/-- The last twenty stored commands under their numbers, the oldest one first. -/
def retained (stored : List Command) : List (Nat × Command) :=
  (recent 20 stored).filterMap fun i => stored[i]?.map fun c => (i % 20 + 1, c)

/-- The lines of a text, each but the first one behind five blanks. -/
def indented : Bytes → Bytes
  | [] => []
  | c :: rest =>
      if c = newline ∧ rest ≠ [] then c :: (List.replicate 5 space ++ indented rest)
      else c :: indented rest

variable {q : CommandQueue} {stored cmds : List Command} {c : Command} {i k : Nat}

theorem mem_retained {n : Nat} : (n, c) ∈ retained stored ↔
    ∃ i ∈ recent 20 stored, stored[i]? = some c ∧ i % 20 + 1 = n := by
  simp only [retained, List.mem_filterMap, Option.map_eq_some_iff, Prod.mk.injEq]
  constructor
  · rintro ⟨i, hi, d, hd, hn, rfl⟩
    exact ⟨i, hi, hd, hn⟩
  · rintro ⟨i, hi, hc, hn⟩
    exact ⟨i, hi, c, hc, hn, rfl⟩

theorem record_of_eq (h : stored.getLast?.map (·.m_CommandStr) = some c.m_CommandStr) :
    record stored c = stored := if_pos h

theorem record_of_ne (h : stored.getLast?.map (·.m_CommandStr) ≠ some c.m_CommandStr) :
    record stored c = stored ++ [c] := if_neg h

theorem length_record_le : stored.length ≤ (record stored c).length := by
  rw [record]
  split
  · exact Nat.le_refl _
  · exact List.length_append ▸ Nat.le_add_right _ _

/-! ## The invariant -/

/-- The place of the number of a position. -/
def cell (i : Nat) : Fin 21 := ⟨i % 20 + 1, by omega⟩

/-- The queue after the commands `stored`: the write index, the count, and what a copy out of each
place gives. -/
structure Holds (q : CommandQueue) (stored : List Command) : Prop where
  cur : q.m_CurHisNum = if stored = [] then -1 else ((stored.length % 20 : Nat) : Int) + 1
  max : q.m_MaxHisNum = stored.length
  retains : Retains 20 (fun k => (q.m_Queue (cell k)).setAll) (stored.map Command.setAll)

theorem place_cell (i : Nat) : place (((i % 20 : Nat) : Int) + 1) = some (cell i) := by
  have hlt := Nat.mod_lt i (show 20 > 0 by decide)
  rw [place, dif_pos (by rw [comQueueSize]; omega), cell]
  rfl

theorem Holds.new (m_Queue : Fin 21 → Command) : Holds (new m_Queue) [] where
  cur := rfl
  max := rfl
  retains := Retains.nil

theorem Holds.cur_eq_neg_one (h : Holds q stored) : q.m_CurHisNum = -1 ↔ stored = [] := by
  rw [h.cur]
  split
  · next hnil => exact iff_of_true rfl hnil
  · next hne => exact iff_of_false (by omega) hne

/-- Reading the place of a number. -/
theorem Holds.setAll_eq (h : Holds q stored) (hi : i ∈ recent 20 stored)
    (hc : stored[i]? = some c) (dst : Command) :
    (q.m_Queue (cell i)).setAll dst = c.setAll dst := by
  have hcopy := h.retains i c.setAll (by rw [List.getElem?_map, hc]; rfl)
    (by rw [List.length_map]; exact (mem_recent.mp hi).2)
  have hcell : cell (i % 20) = cell i := by simp only [cell, Nat.mod_mod]
  rw [← hcell]
  exact congrFun hcopy dst

theorem Holds.commandStr_eq (h : Holds q stored) (hi : i ∈ recent 20 stored)
    (hc : stored[i]? = some c) : (q.m_Queue (cell i)).m_CommandStr = c.m_CommandStr := by
  rw [← Command.setAll_commandStr _ c, h.setAll_eq hi hc, Command.setAll_commandStr]

/-- The index of the last command wraps as the write index does. -/
theorem Holds.place_lastPlace (h : Holds q stored) (hne : stored ≠ []) :
    place q.lastPlace = some (cell (stored.length - 1)) := by
  have hpos := List.length_pos_of_ne_nil hne
  have hlast : q.lastPlace = (((stored.length - 1) % 20 : Nat) : Int) + 1 := by
    rw [lastPlace, h.cur, if_neg hne, comQueueSize]
    split <;> omega
  rw [hlast, place_cell]

theorem last_mem_recent (hne : stored ≠ []) : stored.length - 1 ∈ recent 20 stored := by
  have hpos := List.length_pos_of_ne_nil hne
  rw [mem_recent]
  omega

/-- A command is stored under the next number. -/
theorem store_spec (hcur : q.m_CurHisNum = ((stored.length % 20 : Nat) : Int) + 1)
    (hmax : q.m_MaxHisNum = stored.length)
    (hretains : Retains 20 (fun k => (q.m_Queue (cell k)).setAll) (stored.map Command.setAll))
    (c : Command) :
    if stored.length + 1 < 2 ^ 31 then ∃ q', q.store c = some q' ∧ Holds q' (stored ++ [c])
    else q.store c = none := by
  have hlt := Nat.mod_lt stored.length (show 20 > 0 by decide)
  rw [CommandQueue.store, hcur, hmax, place_cell, Option.bind_eq_bind, Option.bind_some]
  split
  · next hbound =>
    rw [if_pos (by omega)]
    refine ⟨_, rfl, ?_, ?_, ?_⟩
    · rw [if_neg (List.append_ne_nil_of_right_ne_nil _ (List.cons_ne_nil c [])),
        List.length_append, List.length_singleton, comQueueSize]
      dsimp only
      split <;> omega
    · rw [List.length_append, List.length_singleton]
      exact (Int.natCast_succ _).symm
    · rw [List.map_append, List.map_singleton]
      refine hretains.push (by decide) ?_ fun k hk hne => ?_
      · have hcell : cell (stored.length % 20) = cell stored.length := by
          simp only [cell, Nat.mod_mod]
        dsimp only
        rw [List.length_map, hcell, Function.update_self, Command.setAll_eq_setAll]
      · have hcell : cell k ≠ cell stored.length := by
          rw [List.length_map] at hne
          rw [cell, cell, Ne, Fin.mk.injEq]
          omega
        dsimp only
        rw [Function.update_of_ne hcell]
  · next hbound => exact if_neg (by omega)

/-- A command whose text is that of the last one leaves the queue as it is. -/
theorem Holds.addCommand_again (h : Holds q stored)
    (hc : stored.getLast?.map (·.m_CommandStr) = some c.m_CommandStr) :
    q.addCommand c = some q := by
  obtain ⟨last, hlast, htext⟩ := Option.map_eq_some_iff.mp hc
  have hne : stored ≠ [] := by
    rintro rfl
    exact absurd hlast (by simp)
  have hget : stored[stored.length - 1]? = some last := by rw [← hlast, List.getLast?_eq_getElem?]
  rw [addCommand, if_neg (h.cur_eq_neg_one.not.mpr hne), h.place_lastPlace hne,
    Option.bind_eq_bind, Option.bind_some,
    h.commandStr_eq (last_mem_recent hne) hget, if_pos htext]

/-- One call of `AddCommand`. -/
theorem Holds.addCommand (h : Holds q stored) (hlt : stored.length < 2 ^ 31) (c : Command) :
    if (record stored c).length < 2 ^ 31 then
      ∃ q', q.addCommand c = some q' ∧ Holds q' (record stored c)
    else q.addCommand c = none := by
  by_cases hc : stored.getLast?.map (·.m_CommandStr) = some c.m_CommandStr
  · rw [record_of_eq hc, if_pos hlt]
    exact ⟨q, h.addCommand_again hc, h⟩
  · rw [record_of_ne hc, List.length_append, List.length_singleton]
    by_cases hne : stored = []
    · rw [CommandQueue.addCommand, if_pos (h.cur_eq_neg_one.mpr hne)]
      exact @store_spec { q with m_CurHisNum := 1 } _ (by rw [hne]; rfl) h.max h.retains c
    · have hlast := List.getLast?_eq_some_getLast hne
      have hget : stored[stored.length - 1]? = some (stored.getLast hne) := by
        rw [← hlast, List.getLast?_eq_getElem?]
      have htext : (stored.getLast hne).m_CommandStr ≠ c.m_CommandStr := by
        rw [hlast] at hc
        exact fun heq => hc (congrArg some heq)
      rw [CommandQueue.addCommand, if_neg (h.cur_eq_neg_one.not.mpr hne), h.place_lastPlace hne,
        Option.bind_eq_bind, Option.bind_some,
        h.commandStr_eq (last_mem_recent hne) hget, if_neg htext]
      exact store_spec (h.cur.trans (if_neg hne)) h.max h.retains c

theorem length_le_foldl (cmds stored : List Command) :
    stored.length ≤ (cmds.foldl record stored).length := by
  induction cmds generalizing stored with
  | nil => exact Nat.le_refl _
  | cons c cmds ih => exact length_record_le.trans (ih _)

/-- Any number of calls. -/
theorem Holds.run (h : Holds q stored) (hlt : stored.length < 2 ^ 31) (cmds : List Command) :
    if (cmds.foldl record stored).length < 2 ^ 31 then
      ∃ q', q.run cmds = some q' ∧ Holds q' (cmds.foldl record stored)
    else q.run cmds = none := by
  induction cmds generalizing q stored with
  | nil =>
    rw [List.foldl_nil, if_pos hlt]
    exact ⟨q, rfl, h⟩
  | cons c cmds ih =>
    rw [CommandQueue.run, List.foldl_cons, List.foldlM_cons, Option.bind_eq_bind]
    have hstep := h.addCommand hlt c
    split at hstep
    · next hrecord =>
      obtain ⟨q', hq', hholds⟩ := hstep
      rw [hq', Option.bind_some]
      exact ih hholds hrecord
    · next hrecord =>
      rw [hstep, Option.bind_none, if_neg fun hall => hrecord ((length_le_foldl _ _).trans_lt hall)]

/-- The queue after any sequence of commands, up to the overflow of the counter. -/
theorem run_spec (m_Queue : Fin 21 → Command) (cmds : List Command) :
    if (history cmds).length < 2 ^ 31 then
      ∃ q, (new m_Queue).run cmds = some q ∧ Holds q (history cmds)
    else (new m_Queue).run cmds = none :=
  (Holds.new m_Queue).run (by decide) cmds

/-- No two neighbours of the history have the same text. -/
theorem isChain_history (cmds : List Command) :
    (history cmds).IsChain fun c d => c.m_CommandStr ≠ d.m_CommandStr := by
  have hstep : ∀ stored : List Command,
      stored.IsChain (fun c d => c.m_CommandStr ≠ d.m_CommandStr) →
      (cmds.foldl record stored).IsChain fun c d => c.m_CommandStr ≠ d.m_CommandStr := by
    induction cmds with
    | nil => exact fun _ hchain => hchain
    | cons c cmds ih =>
      intro stored hchain
      refine ih _ ?_
      rw [record]
      split
      · exact hchain
      · next hne =>
        refine List.isChain_append.mpr
          ⟨hchain, List.isChain_singleton c, fun d hd e he heq => hne ?_⟩
        rw [List.head?_cons, Option.mem_some_iff] at he
        rw [Option.mem_def.mp hd, Option.map_some, heq, he]
  exact hstep [] List.isChain_nil

/-! ## Reading a command -/

theorem Holds.getCommand_zero (h : Holds q stored) (hne : stored ≠ []) {last : Command}
    (hlast : stored.getLast? = some last) (dst : Command) :
    q.getCommand 0 dst = some (.ok (last.setAll dst)) := by
  have hget : stored[stored.length - 1]? = some last := by
    rw [← hlast, List.getLast?_eq_getElem?]
  have hcheck : q.checkHisNum 0 = .ok () := by
    rw [checkHisNum, if_neg (h.cur_eq_neg_one.not.mpr hne), if_neg (by decide)]
  rw [getCommand, hcheck]
  dsimp only
  rw [if_pos rfl, h.place_lastPlace hne, Option.map_some,
    h.setAll_eq (last_mem_recent hne) hget]

/-- A retained command is read by its number. -/
theorem Holds.getCommand_retained (h : Holds q stored) {n : Nat} (hc : (n, c) ∈ retained stored)
    (dst : Command) : q.getCommand n dst = some (.ok (c.setAll dst)) := by
  obtain ⟨i, hi, hget, rfl⟩ := mem_retained.mp hc
  have hbound := mem_recent.mp hi
  have hne : stored ≠ [] := List.ne_nil_of_length_pos (by omega)
  have hcheck : q.checkHisNum ((i % 20 + 1 : Nat) : Int) = .ok () := by
    rw [checkHisNum, if_neg (h.cur_eq_neg_one.not.mpr hne), comQueueSize, if_neg (by omega)]
  have hle : i % 20 ≤ i := Nat.mod_le i 20
  rw [getCommand, hcheck]
  dsimp only
  rw [if_neg (by omega), h.max, if_neg (by omega), Int.natCast_succ, place_cell, Option.map_some,
    h.setAll_eq hi hget]

/-- A number under which nothing is stored is refused. -/
theorem Holds.getCommand_missing (h : Holds q stored) {n : Nat} (hn : stored.length < n)
    (dst : Command) : ∃ text, q.getCommand n dst = some (.error text) := by
  rw [getCommand]
  cases hcheck : q.checkHisNum n with
  | error text => exact ⟨text, rfl⟩
  | ok u =>
    refine ⟨noCommand, ?_⟩
    dsimp only
    rw [if_neg (by omega), h.max, if_pos (by omega)]

/-- The queue gives back what was stored: the last command, the latest one of each number, nothing
under a number that was not used, and exactly the last twenty. A command like the one before it
changes nothing. -/
structure Remembers (q : CommandQueue) (stored : List Command) (dst : Command) : Prop where
  last : ∀ c, stored.getLast? = some c → q.getCommand 0 dst = some (.ok c)
  empty : stored = [] → ∃ text, q.getCommand 0 dst = some (.error text)
  latest : ∀ i c, stored[i]? = some c → (∀ j < stored.length, j % 20 = i % 20 → j ≤ i) →
    q.getCommand ((i % 20 + 1 : Nat) : Int) dst = some (.ok c)
  missing : ∀ n : Nat, 1 ≤ n → n ≤ 20 → (∀ i < stored.length, i % 20 + 1 ≠ n) →
    ∃ text, q.getCommand n dst = some (.error text)
  kept : ∀ (n : Nat) c, 1 ≤ n → n ≤ 20 →
    (q.getCommand n dst = some (.ok c) ↔ (n, c) ∈ retained stored)
  again : ∀ c, stored.getLast?.map (·.m_CommandStr) = some c.m_CommandStr →
    q.addCommand c = some q

/-- A number was used, and one of the last commands has it, or it was not used yet. -/
theorem retained_or_missing (stored : List Command) {n : Nat} (hpos : 1 ≤ n) (hn : n ≤ 20) :
    (∃ c, (n, c) ∈ retained stored) ∨ stored.length < n := by
  rcases Nat.lt_or_ge stored.length n with hlt | hge
  · exact Or.inr hlt
  · obtain ⟨k, hk, hmod⟩ := @exists_recent _ 20 stored (n - 1) (by omega) (by omega)
    have hget := List.getElem?_eq_getElem (mem_recent.mp hk).1
    exact Or.inl ⟨_, mem_retained.mpr ⟨k, hk, hget, by omega⟩⟩

theorem last_mem_retained {last : Command} (h : stored.getLast? = some last) :
    ((stored.length - 1) % 20 + 1, last) ∈ retained stored := by
  have hne : stored ≠ [] := by
    rintro rfl
    exact absurd h (by simp)
  refine mem_retained.mpr ⟨_, last_mem_recent hne, ?_, rfl⟩
  rw [← h, List.getLast?_eq_getElem?]

theorem Holds.remembers (h : Holds q stored) {dst : Command}
    (hdst : ∀ p ∈ retained stored, p.2.AgreesBeyondCopy dst) : q.Remembers stored dst where
  last c hlast := by
    have hne : stored ≠ [] := by
      rintro rfl
      exact absurd hlast (by simp)
    rw [h.getCommand_zero hne hlast, Command.setAll_eq_iff.mpr (hdst _ (last_mem_retained hlast))]
  empty hnil := by
    refine ⟨noCommand, ?_⟩
    rw [getCommand, checkHisNum, if_pos (h.cur_eq_neg_one.mpr hnil)]
  latest i c hc hlatest := by
    have hi : i ∈ recent 20 stored := by
      obtain ⟨hlt, -⟩ := List.getElem?_eq_some_iff.mp hc
      refine mem_recent.mpr ⟨hlt, Nat.le_of_not_lt fun hlong => ?_⟩
      have hle := hlatest (i + 20) hlong (Nat.add_mod_right i 20)
      omega
    have hmem : (i % 20 + 1, c) ∈ retained stored := mem_retained.mpr ⟨i, hi, hc, rfl⟩
    rw [h.getCommand_retained hmem, Command.setAll_eq_iff.mpr (hdst _ hmem)]
  missing n hpos hn hunused := by
    refine h.getCommand_missing (Nat.lt_of_not_le fun hle => hunused (n - 1) (by omega) ?_) dst
    rw [Nat.mod_eq_of_lt (by omega)]
    omega
  kept n c hpos hn := by
    constructor
    · intro hget
      rcases retained_or_missing stored hpos hn with ⟨d, hd⟩ | hmissing
      · rw [h.getCommand_retained hd, Command.setAll_eq_iff.mpr (hdst _ hd)] at hget
        cases hget
        exact hd
      · obtain ⟨text, herror⟩ := h.getCommand_missing hmissing dst
        rw [herror] at hget
        cases hget
    · intro hmem
      rw [h.getCommand_retained hmem, Command.setAll_eq_iff.mpr (hdst _ hmem)]
  again _ hc := h.addCommand_again hc

/-- The queue remembers the commands as long as the counter does not overflow, if the members that
`setAll` passes over are the same in the commands and in the one that is filled in. -/
theorem remembers_iff (m_Queue : Fin 21 → Command) (cmds : List Command) (dst : Command) :
    (∃ q, (new m_Queue).run cmds = some q ∧ q.Remembers (history cmds) dst) ↔
      (history cmds).length < 2 ^ 31 ∧
        ∀ p ∈ retained (history cmds), p.2.AgreesBeyondCopy dst := by
  have hrun := run_spec m_Queue cmds
  split at hrun
  · next hlt =>
    obtain ⟨q, hq, hholds⟩ := hrun
    refine ⟨?_, fun hdst => ⟨q, hq, hholds.remembers hdst.2⟩⟩
    rintro ⟨q', hq', hremembers⟩
    rw [hq] at hq'
    cases hq'
    refine ⟨hlt, fun p hp => Command.setAll_eq_iff.mp ?_⟩
    obtain ⟨i, -, -, hn⟩ := mem_retained.mp hp
    have hget := (hremembers.kept p.1 p.2 (by omega) (by omega)).mpr hp
    rw [hholds.getCommand_retained hp] at hget
    exact Except.ok.inj (Option.some.inj hget)
  · next hge =>
    refine iff_of_false ?_ fun h => hge h.1
    rintro ⟨q, hq, -⟩
    rw [hrun] at hq
    cases hq

/-- A script that is run by `@` is not given back with its kind of path. -/
theorem not_remembers_path :
    ¬∃ q, (new default).run [{ (default : Command) with m_PathType := .at }] = some q ∧
      q.Remembers (history [{ (default : Command) with m_PathType := .at }]) default := by
  rintro ⟨q, hq, hremembers⟩
  have hlast := hremembers.last _ rfl
  cases hq
  exact absurd hlast (by decide)

/-! ## The text of a command -/

section layout

variable {commandLen : Nat} {text rest line acc : Bytes}

theorem indented_singleton (c : UInt8) : indented [c] = [c] :=
  if_neg fun hnewline => hnewline.2 rfl

theorem indented_newline (h : rest ≠ []) :
    indented (newline :: rest) = newline :: (List.replicate 5 space ++ indented rest) :=
  if_pos ⟨rfl, h⟩

theorem indented_cons {c : UInt8} (h : c ≠ newline) :
    indented (c :: rest) = c :: indented rest := if_neg fun hnewline => h hnewline.1

theorem indented_of_not_mem (h : newline ∉ text) : indented text = text := by
  induction text with
  | nil => rfl
  | cons c rest ih =>
    obtain ⟨hc, hrest⟩ := List.ne_and_not_mem_of_not_mem_cons h
    rw [indented_cons (Ne.symm hc), ih hrest]

theorem length_le_indented (text : Bytes) : text.length ≤ (indented text).length := by
  induction text with
  | nil => exact Nat.le_refl _
  | cons c rest ih =>
    rw [indented]
    split
    · rw [List.length_cons, List.length_cons, List.length_append]
      omega
    · rw [List.length_cons, List.length_cons]
      exact Nat.succ_le_succ ih

/-- A last line without a newline takes the place of all lines in front of it. -/
theorem layout_of_not_mem (h : newline ∉ rest) :
    layout commandLen acc line rest =
      if (line ++ rest).length < commandLen then some (line ++ rest) else none := by
  induction rest generalizing line with
  | nil => rw [layout, List.append_nil]
  | cons c rest ih =>
    obtain ⟨hc, hrest⟩ := List.ne_and_not_mem_of_not_mem_cons h
    rw [layout, if_pos (Ne.symm hc), ih hrest, List.append_assoc, List.singleton_append]

/-- A text that ends with a newline is laid out line by line. -/
theorem layout_of_getLast (h : rest.getLast? = some newline) :
    layout commandLen acc line rest =
      if (acc ++ line ++ indented rest).length < commandLen then some (acc ++ line ++ indented rest)
      else none := by
  induction rest generalizing acc line with
  | nil => cases h
  | cons c rest ih =>
    rw [layout]
    by_cases hrest : rest = []
    · subst hrest
      rw [List.getLast?_singleton] at h
      cases h
      rw [if_neg (not_not.mpr rfl), if_pos rfl, indented_singleton]
    · have hlast : rest.getLast? = some newline := by
        rw [List.getLast?_cons_of_ne_nil hrest] at h
        exact h
      by_cases hc : c = newline
      · subst hc
        have hassoc : acc ++ line ++ newline :: (List.replicate 5 space ++ indented rest) =
            (acc ++ line ++ newline :: List.replicate 5 space) ++ [] ++ indented rest := by
          simp only [List.append_assoc, List.cons_append, List.append_nil]
        rw [if_neg (not_not.mpr rfl), if_neg hrest, indented_newline hrest, hassoc]
        dsimp only
        rw [ih hlast]
        split
        · rfl
        · next hlong =>
          -- what does not fit yet does not fit with the lines that follow
          rw [if_neg]
          rw [List.length_append, List.length_append]
          omega
      · rw [if_pos hc, ih hlast, indented_cons hc]
        simp only [List.append_assoc, List.cons_append, List.nil_append]

/-- What is printed of a text whose last line has no newline is shorter than the text. -/
theorem length_layout (hmem : newline ∈ rest) (hlast : rest.getLast? ≠ some newline)
    (h : layout commandLen acc line rest = some text) : text.length < rest.length := by
  induction rest generalizing acc line with
  | nil => cases hmem
  | cons c rest ih =>
    rw [layout] at h
    by_cases hrest : rest = []
    · subst hrest
      rw [List.mem_singleton] at hmem
      rw [List.getLast?_singleton, hmem] at hlast
      exact absurd rfl hlast
    · rw [List.getLast?_cons_of_ne_nil hrest] at hlast
      rw [List.length_cons]
      by_cases hc : c = newline
      · rw [if_neg (not_not.mpr hc), if_neg hrest] at h
        dsimp only at h
        split at h
        · by_cases hmore : newline ∈ rest
          · exact (ih hmore hlast h).trans (Nat.lt_succ_self _)
          · rw [layout_of_not_mem hmore, List.nil_append] at h
            split at h
            · cases h
              exact Nat.lt_succ_self _
            · cases h
        · cases h
      · rw [if_pos hc] at h
        have hmore : newline ∈ rest := List.mem_of_ne_of_mem (Ne.symm hc) hmem
        exact (ih hmore hlast h).trans (Nat.lt_succ_self _)

/-- A text is printed as a whole. -/
theorem layout_eq_iff : layout commandLen [] [] text = some (indented text) ↔
    (newline ∈ text → text.getLast? = some newline) ∧ (indented text).length < commandLen := by
  by_cases hmem : newline ∈ text
  · by_cases hlast : text.getLast? = some newline
    · rw [layout_of_getLast hlast, List.append_nil, List.nil_append]
      simp [hlast]
    · refine iff_of_false (fun h => ?_) fun h => hlast (h.1 hmem)
      exact absurd (length_le_indented text) (Nat.not_le.mpr (length_layout hmem hlast h))
  · rw [layout_of_not_mem hmem, indented_of_not_mem hmem, List.nil_append]
    simp [hmem]

end layout

/-! ## The order of the listing -/

/-- A command is printed as a whole: it fits in the buffers, and it has one line or ends with a
newline. -/
def Listable (commandLen : Nat) (c : Command) : Prop :=
  c.m_CommandStr.length < commandLen ∧
    (newline ∈ eraseWhiteSpace c.m_CommandStr →
      (eraseWhiteSpace c.m_CommandStr).getLast? = some newline) ∧
    (indented (eraseWhiteSpace c.m_CommandStr)).length < commandLen

/-- What the listing is to print for a command. -/
def listed (p : Nat × Command) : Bytes × Bytes :=
  (header p.1, indented (eraseWhiteSpace p.2.m_CommandStr))

/-- Every retained command is printed once, the oldest first, under the number by which it is
read. -/
structure Lists (q : CommandQueue) (commandLen : Nat) (stored : List Command) : Prop where
  printed : q.displayHistory commandLen =
    some (if stored = [] then .error noCommand else .ok ((retained stored).map listed))
  numbered : ∀ p ∈ retained stored, ∀ dst, q.getCommand p.1 dst = some (.ok (p.2.setAll dst))

theorem mapM_eq_some_map {α β : Type*} {f : α → Option β} {g : α → β} {l : List α} :
    l.mapM f = some (l.map g) ↔ ∀ a ∈ l, f a = some (g a) := by
  induction l with
  | nil => simp
  | cons a l ih =>
    rw [List.mapM_cons, List.forall_mem_cons, ← ih]
    cases f a <;> cases l.mapM f <;> simp

/-- The positions of the retained commands. -/
theorem retained_eq (stored : List Command) :
    retained stored = (recent 20 stored).map fun i => (i % 20 + 1, stored.getD i default) := by
  rw [retained, ← List.filterMap_eq_map']
  refine List.filterMap_congr fun i hi => ?_
  rw [List.getD_eq_getElem?_getD, List.getElem?_eq_getElem (mem_recent.mp hi).1]
  rfl

theorem Holds.display_iff (h : Holds q stored) (hi : i ∈ recent 20 stored)
    (hc : stored[i]? = some c) (commandLen : Nat) :
    q.display commandLen (((i % 20 : Nat) : Int) + 1) = some (listed (i % 20 + 1, c)) ↔
      Listable commandLen c := by
  rw [display, place_cell, Option.bind_eq_bind, Option.bind_some, h.commandStr_eq hi hc, Listable,
    ← layout_eq_iff, listed]
  dsimp only
  split
  · next hlt =>
    cases hlayout : layout commandLen [] [] (eraseWhiteSpace c.m_CommandStr) with
    | none => simp
    | some text => simp [hlt]
  · next hge => exact iff_of_false (by simp) fun hand => hge hand.1

/-- The rounds of the loop from a number on. -/
theorem displayFrom_eq (q : CommandQueue) (commandLen n s : Nat) :
    q.displayFrom commandLen n (((s % 20 : Nat) : Int) + 1) =
      (((List.range' s n).map (· % 20)).filter fun k : Nat =>
        q.m_MaxHisNum ≥ (k : Int) + 1 ∨ q.m_MaxHisNum > 20).mapM fun k : Nat =>
          q.display commandLen ((k : Int) + 1) := by
  induction n generalizing s with
  | zero => rfl
  | succ n ih =>
    have hnext : (if ((s % 20 : Nat) : Int) + 1 = comQueueSize - 1 then 1
        else ((s % 20 : Nat) : Int) + 1 + 1) = (((s + 1) % 20 : Nat) : Int) + 1 := by
      rw [comQueueSize]
      split <;> omega
    rw [displayFrom, hnext, ih, List.range'_succ, List.map_cons, List.filter_cons]
    by_cases hshown : q.m_MaxHisNum ≥ ((s % 20 : Nat) : Int) + 1 ∨ q.m_MaxHisNum > 20
    · rw [if_pos (by rw [comQueueSize]; exact hshown), if_pos (decide_eq_true hshown),
        List.mapM_cons]
      cases q.display commandLen (((s % 20 : Nat) : Int) + 1) <;> rfl
    · rw [if_neg (by rw [comQueueSize]; exact hshown), if_neg (by simpa using hshown)]
      simp

/-- The rounds over the places of the retained commands, in their order. -/
theorem Holds.mapM_display_iff (h : Holds q stored) (commandLen : Nat) :
    (((recent 20 stored).map (· % 20)).mapM fun k : Nat => q.display commandLen ((k : Int) + 1)) =
        some ((retained stored).map listed) ↔
      ∀ p ∈ retained stored, Listable commandLen p.2 := by
  rw [List.mapM_map, retained_eq, List.map_map, mapM_eq_some_map, List.forall_mem_map]
  refine forall₂_congr fun i hi => ?_
  have hget : stored[i]? = some (stored.getD i default) := by
    rw [List.getD_eq_getElem?_getD, List.getElem?_eq_getElem (mem_recent.mp hi).1]
    rfl
  exact h.display_iff hi hget commandLen

/-- What the loop begins with is what is printed first. -/
theorem head_of_mapM {α β : Type*} {f : α → Option β} {a : α} {l : List α} {b : β} {bs : List β}
    (h : (a :: l).mapM f = some (b :: bs)) : f a = some b := by
  rw [List.mapM_cons] at h
  cases hfa : f a with
  | none =>
    rw [hfa] at h
    cases h
  | some c =>
    rw [hfa] at h
    cases hl : l.mapM f with
    | none =>
      rw [hl] at h
      cases h
    | some cs =>
      rw [hl] at h
      cases h
      rfl

/-- The places that are shown, from that of the number `s` on. -/
theorem Holds.displayFrom_eq (h : Holds q stored) (commandLen s : Nat) :
    q.displayFrom commandLen 20 (((s % 20 : Nat) : Int) + 1) =
      (((List.range' s 20).map (· % 20)).filter fun k =>
        k < stored.length ∨ 20 ≤ stored.length).mapM fun k : Nat =>
          q.display commandLen ((k : Int) + 1) := by
  rw [CommandQueue.displayFrom_eq, h.max]
  congr 1
  refine List.filter_congr fun k hk => ?_
  obtain ⟨i, -, rfl⟩ := List.mem_map.mp hk
  rw [decide_eq_decide]
  omega

/-- From the first place on, the oldest command comes last if it stands on the last place. -/
theorem Holds.displayFrom_first_ne (h : Holds q stored) (commandLen : Nat)
    (hfull : 20 < stored.length) (hlast : stored.length % 20 = 19) :
    q.displayFrom commandLen 20 1 ≠ some ((retained stored).map listed) := by
  have hall : ∀ k ∈ (List.range' 0 20).map (· % 20),
      decide (k < stored.length ∨ 20 ≤ stored.length) = true :=
    fun _ _ => decide_eq_true (Or.inr hfull.le)
  have hfrom := h.displayFrom_eq commandLen 0
  rw [List.filter_eq_self.mpr hall, Nat.zero_mod, Nat.cast_zero, Int.zero_add] at hfrom
  have hrecent : recent 20 stored =
      (stored.length - 20) :: List.range' (stored.length - 20 + 1) 19 := by
    rw [recent, Nat.min_eq_right hfull.le]
    rfl
  rw [hfrom, retained_eq, hrecent]
  intro hprinted
  have hfirst := head_of_mapM hprinted
  have hnumber : (stored.length - 20) % 20 + 1 = 20 := by omega
  rw [Nat.cast_zero, Int.zero_add, display, listed] at hfirst
  dsimp only at hfirst
  rw [hnumber] at hfirst
  obtain ⟨i, -, hfirst⟩ := Option.bind_eq_some_iff.mp hfirst
  split at hfirst
  · obtain ⟨text, -, hpair⟩ := Option.bind_eq_some_iff.mp hfirst
    have hheader : header 1 = header 20 := congrArg Prod.fst (Option.some.inj hpair)
    exact absurd hheader (by decide)
  · cases hfirst

/-- The commands are listed in order unless the write index stands on the last place after the first
twenty commands. -/
theorem Holds.displayHistory_iff (h : Holds q stored) (commandLen : Nat) :
    q.displayHistory commandLen =
        some (if stored = [] then .error noCommand else .ok ((retained stored).map listed)) ↔
      ¬(20 < stored.length ∧ stored.length % 20 = 19) ∧
        ∀ p ∈ retained stored, Listable commandLen p.2 := by
  by_cases hne : stored = []
  · subst hne
    rw [displayHistory, if_pos (h.cur_eq_neg_one.mpr rfl), if_pos rfl]
    refine iff_of_true rfl ⟨fun hfull => absurd hfull.1 (by decide), fun p hp => ?_⟩
    exact absurd hp List.not_mem_nil
  · have hok : ∀ l : Option (List (Bytes × Bytes)),
        l.map (Except.ok (ε := String)) = some (.ok ((retained stored).map listed)) ↔
          l = some ((retained stored).map listed) := by
      intro l
      cases l <;> simp
    rw [displayHistory, if_neg (h.cur_eq_neg_one.not.mpr hne), if_neg hne, hok, h.cur, if_neg hne]
    by_cases hlast : stored.length % 20 = 19
    · -- the write index stands on the last place, and the loop begins with the first one
      rw [hlast, if_pos (by decide)]
      by_cases hfull : 20 < stored.length
      · exact iff_of_false (h.displayFrom_first_ne commandLen hfull hlast) fun hand =>
          hand.1 ⟨hfull, rfl⟩
      · have hlen : stored.length = 19 := by omega
        have hscan : ((List.range' 0 20).map (· % 20)).filter
            (fun k => k < stored.length ∨ 20 ≤ stored.length) =
              (recent 20 stored).map (· % 20) := by
          rw [recent, hlen]
          rfl
        have hfrom := h.displayFrom_eq commandLen 0
        rw [Nat.zero_mod, Nat.cast_zero, Int.zero_add, hscan] at hfrom
        rw [hfrom, h.mapM_display_iff]
        exact (and_iff_right fun hand => hfull hand.1).symm
    · rw [if_neg (by rw [comQueueSize]; omega), h.displayFrom_eq, scan_eq, h.mapM_display_iff]
      exact (and_iff_right fun hand => hlast hand.2).symm

/-- The listing is right after any commands, as long as the counter does not overflow, if each of
them is printed as a whole and the write index does not stand on the last place of a full queue. -/
theorem lists_iff (m_Queue : Fin 21 → Command) (cmds : List Command) (commandLen : Nat) :
    (∃ q, (new m_Queue).run cmds = some q ∧ q.Lists commandLen (history cmds)) ↔
      (history cmds).length < 2 ^ 31 ∧
        ¬(20 < (history cmds).length ∧ (history cmds).length % 20 = 19) ∧
        ∀ p ∈ retained (history cmds), Listable commandLen p.2 := by
  have hrun := run_spec m_Queue cmds
  split at hrun
  · next hlt =>
    obtain ⟨q, hq, hholds⟩ := hrun
    rw [← hholds.displayHistory_iff commandLen]
    constructor
    · rintro ⟨q', hq', hlists⟩
      rw [hq] at hq'
      cases hq'
      exact ⟨hlt, hlists.printed⟩
    · rintro ⟨-, hprinted⟩
      exact ⟨q, hq, hprinted, fun p hp dst => hholds.getCommand_retained hp dst⟩
  · next hge =>
    refine iff_of_false ?_ fun h => hge h.1
    rintro ⟨q, hq, -⟩
    rw [hrun] at hq
    cases hq

theorem not_lists {m_Queue : Fin 21 → Command} {commandLen : Nat}
    (hfull : 20 < (history cmds).length) (hlast : (history cmds).length % 20 = 19) :
    ¬∃ q, (new m_Queue).run cmds = some q ∧ q.Lists commandLen (history cmds) := by
  rintro ⟨q, hq, hlists⟩
  have hrun := run_spec m_Queue cmds
  split at hrun
  · obtain ⟨q', hq', hholds⟩ := hrun
    obtain rfl := Option.some.inj (hq.symm.trans hq')
    exact ((hholds.displayHistory_iff commandLen).mp hlists.printed).1 ⟨hfull, hlast⟩
  · rw [hrun] at hq
    cases hq

/-- After 39 different commands the oldest one, which has the number 20, is listed last. -/
theorem not_lists_wrapped :
    ¬∃ q, (new default).run ((List.range 39).map fun k =>
        { (default : Command) with m_CommandStr := [65 + k.toUInt8] }) = some q ∧
      q.Lists 65536 (history ((List.range 39).map fun k =>
        { (default : Command) with m_CommandStr := [65 + k.toUInt8] })) :=
  not_lists (by decide +kernel) (by decide +kernel)

end CommandQueue

end Natc.Isql
