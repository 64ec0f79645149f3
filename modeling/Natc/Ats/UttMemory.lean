import Mathlib.Algebra.Group.Nat.Defs
import Mathlib.Algebra.Ring.Int.Defs
import Mathlib.Data.List.Nodup
import Mathlib.Data.List.Perm.Subperm
import Mathlib.Logic.Function.Basic
import Natc.Lib.Linked
import Natc.Lib.Machine

/-!
# The memory manager `uttMemory`

In the checked build every allocation gets a block of its own, and a header for it that is linked
behind the current one. `clear` and `setStatus` move the current header back and keep the blocks
behind it, but the next allocation links its header in their place.
-/

namespace Natc.Ats

open Lib

abbrev Addr := Nat

structure UttMemoryHeader where
  next : Option Addr
  buffer : Option Addr
  length : Nat
  cursor : Nat

structure UttMemoryStatus where
  savedCurrent : Option Addr
  savedCursor : Nat
deriving DecidableEq

/-- The members of the class, and the memory it works on. -/
structure UttMemory where
  head_ : Option Addr
  current_ : Option Addr
  /-- What was allocated and not yet freed: headers and buffers. -/
  blocks : List Addr
  /-- What a header at an address holds. -/
  contents : Addr → UttMemoryHeader

namespace UttMemory

/-- A conversion to `SInt`. -/
def toSInt (n : Int) : Int := n.bmod (2 ^ 32)

/-- A conversion to `ULong`. -/
def toULong (n : Int) : Nat := (n % 2 ^ 64).toNat

/-- `(Size + 7) & ~7` as an `SInt`. -/
def align8 (Size : Int) : Int := toSInt (Size + 7) / 8 * 8

/-- `sizeof(uttMemoryHeader)`. -/
def sizeofHeader : Nat := 32

/-- `align8((UInt)n)`, compared with a `ULong`. -/
def aligned (n : Nat) : Nat := toULong (align8 (toSInt n))

variable (m : UttMemory)

/-- `malloc`, which returns an address that is not in use. -/
def malloc (result : Addr) : Option UttMemory :=
  if result ∈ m.blocks then none else some { m with blocks := result :: m.blocks }

/-- `free`, of no address twice. -/
def free : Option Addr → UttMemory → Option UttMemory
  | none, m => some m
  | some a, m => if a ∈ m.blocks then some { m with blocks := m.blocks.erase a } else none

/-- The header at an address, where there is one. -/
def read (a : Addr) : Option UttMemoryHeader :=
  if a ∈ m.blocks then some (m.contents a) else none

def write (a : Addr) (h : UttMemoryHeader) : Option UttMemory :=
  if a ∈ m.blocks then some { m with contents := Function.update m.contents a h } else none

/-- `current_->cursor = cursor`. -/
def setCursor (a : Addr) (cursor : Nat) : Option UttMemory := do
  let h ← m.read a
  m.write a { h with cursor := cursor }

/-- The new header becomes the current one. -/
def header (sHeader : Addr) : Option UttMemory := do
  let m ← m.malloc sHeader
  let m ← m.write sHeader { next := none, cursor := 0, length := 0, buffer := none }
  match m.head_ with
  | none => some { m with head_ := some sHeader, current_ := some sHeader }
  | some _ =>
    let current ← m.current_
    let h ← m.read current
    let m ← m.write current { h with next := some sHeader }
    some { m with current_ := some sHeader }

/-- `alloc`, where the two calls of `malloc` return `sHeader` and `result`. -/
def alloc (Size : Int) (sHeader result : Addr) : Option (Addr × UttMemory) := do
  let m ← m.header sHeader
  let m ← m.malloc result
  let current ← m.current_
  let h ← m.read current
  let m ← m.write current
    { h with buffer := some result, length := toULong Size, cursor := toULong Size }
  some (result, m)

/-- `getStatus`; its failure is an inner `none`. -/
def getStatus : Option (Option UttMemoryStatus) :=
  match m.head_, m.current_ with
  | none, none => some (some ⟨none, 0⟩)
  | some _, some current => (m.read current).map fun h => some ⟨current, h.cursor⟩
  | _, _ => some none

/-- The loop of `setStatus`, from a header on. -/
def search (Status : UttMemoryStatus) : Nat → Option Addr → Option (Bool × UttMemory)
  | 0, _ => none
  | _ + 1, none => some (false, m)
  | n + 1, some cursor => do
    if some cursor = Status.savedCurrent then
      let h ← m.read cursor
      if Status.savedCursor ≠ aligned Status.savedCursor then some (false, m)
      else if Status.savedCursor < aligned sizeofHeader then some (false, m)
      else if h.cursor < Status.savedCursor then some (false, m)
      else
        let m ← m.setCursor cursor Status.savedCursor
        some (true, { m with current_ := Status.savedCurrent })
    else if some cursor = m.current_ then some (false, m)
    else
      let h ← m.read cursor
      search Status n h.next

/-- Whether `setStatus` succeeds, and the memory after it. -/
def setStatus (Status : UttMemoryStatus) : Option (Bool × UttMemory) :=
  match m.head_, m.current_ with
  | none, none =>
    some (if Status.savedCurrent ≠ none ∨ Status.savedCursor ≠ 0 then false else true, m)
  | some head, some _ =>
    if Status.savedCurrent = none ∧ Status.savedCursor = 0 then do
      let m ← m.setCursor head (aligned sizeofHeader)
      some (true, { m with current_ := some head })
    else m.search Status (m.blocks.length + 1) m.head_
  | _, _ => some (false, m)

def clear : Option UttMemory :=
  match m.head_ with
  | none => some m
  | some head => do
    let m ← m.setCursor head (aligned sizeofHeader)
    some { m with current_ := some head }

/-- What is freed from a header on, in this order. -/
def release : Nat → Option Addr → UttMemory → Option (List Addr × UttMemory)
  | 0, _, _ => none
  | _ + 1, none, m => some ([], m)
  | n + 1, some clue, m => do
    let h ← m.read clue
    let m ← free h.buffer m
    let m ← free (some clue) m
    let (freed, m) ← release n h.next m
    some (h.buffer.toList ++ clue :: freed, m)

def freeAll : Option (List Addr × UttMemory) :=
  match m.head_ with
  | none => some ([], m)
  | some head => do
    let (freed, m) ← release (m.blocks.length + 1) (some head) m
    some (freed, { m with current_ := none, head_ := none })

/-! ## What is promised -/

/-- `uttMemory()`. -/
def init : UttMemory where
  head_ := none
  current_ := none
  blocks := []
  contents _ := ⟨none, none, 0, 0⟩

def next (a : Addr) : Option Addr := (m.contents a).next

def buffer (a : Addr) : Option Addr := (m.contents a).buffer

/-- The headers of the list. -/
def headers : List Addr := walk m.next m.blocks.length m.head_

/-- A rollback to `Status` goes below `other`: to a header in front of the other one's, or to a
smaller cursor of the same. The status of the empty memory is below all others. -/
def below (Status other : UttMemoryStatus) : Bool :=
  match Status.savedCurrent, other.savedCurrent with
  | none, other => other.isSome
  | some _, none => false
  | some c, some d =>
    d ∈ behind m.headers c ∨ c = d ∧ Status.savedCursor < other.savedCursor

/-- The memory, and the statuses that `getStatus` returned since the last `clear` or `freeAll` with
no rollback below them. -/
structure Use where
  memory : UttMemory
  saved : List UttMemoryStatus

/-- A call; an allocation comes with the two addresses that it gets. -/
inductive Call
  | alloc (Size : Int) (sHeader result : Addr)
  | getStatus
  | setStatus (Status : UttMemoryStatus)
  | clear
  | freeAll

def call (u : Use) : Call → Option Use
  | .alloc Size sHeader result =>
    (u.memory.alloc Size sHeader result).map fun r => { u with memory := r.2 }
  | .getStatus => u.memory.getStatus.map fun r => { u with saved := r.toList ++ u.saved }
  | .setStatus Status => (u.memory.setStatus Status).map fun r =>
    ⟨r.2, if r.1 then u.saved.filter fun other => !u.memory.below Status other else u.saved⟩
  | .clear => u.memory.clear.map fun m => ⟨m, []⟩
  | .freeAll => u.memory.freeAll.map fun r => ⟨r.2, []⟩

/-- What is in use is reachable from the head of the list, `freeAll` frees all of it and nothing
twice, and a saved status can be set and is then the status again. -/
structure Kept (u : Use) : Prop where
  reachable : ∀ a ∈ u.memory.blocks, ∃ h, Reaches u.memory.next u.memory.head_ h ∧
    (a = h ∨ u.memory.buffer h = some a)
  freed : ∃ freed m, u.memory.freeAll = some (freed, m) ∧ freed.Nodup ∧
    ∀ a, a ∈ freed ↔ a ∈ u.memory.blocks
  restored : ∀ st ∈ u.saved, ∃ m, u.memory.setStatus st = some (true, m) ∧
    m.getStatus = some (some st)

/-- What the call needs of the memory. -/
def Spared (u : Use) : Call → Prop
  | .alloc .. => (u.memory.head_ = none → u.saved = []) ∧
    ∀ current ∈ u.memory.current_, u.memory.next current = none
  | .getStatus => ∀ current ∈ u.memory.current_,
    (u.memory.contents current).cursor = aligned (u.memory.contents current).cursor ∧
      aligned sizeofHeader ≤ (u.memory.contents current).cursor
  | _ => True

/-! ## The list up to the current header and behind it -/

/-- What the headers hold in memory, in the order in which it is freed. -/
def owned (cells : List Addr) : List Addr :=
  cells.flatMap fun a => (m.buffer a).toList ++ [a]

/-- The list goes through `front`, whose last header is the current one, and on through `back`. -/
structure Stands (front back : List Addr) : Prop where
  linked : Linked m.next m.head_ (front ++ back)
  current : m.current_ = front.getLast?
  empty : front = [] → back = []
  nodup : (m.owned (front ++ back)).Nodup
  live : ∀ a ∈ m.owned (front ++ back), a ∈ m.blocks
  distinct : m.blocks.Nodup

/-- The saved cursor is accepted for the header `c`. -/
def Settable (c : Addr) (savedCursor : Nat) : Prop :=
  savedCursor = aligned savedCursor ∧ aligned sizeofHeader ≤ savedCursor ∧
    savedCursor ≤ (m.contents c).cursor

instance (c : Addr) (savedCursor : Nat) : Decidable (m.Settable c savedCursor) :=
  inferInstanceAs (Decidable (_ ∧ _ ∧ _))

def withCursor (a : Addr) (cursor : Nat) : UttMemory :=
  { m with contents := Function.update m.contents a { m.contents a with cursor := cursor } }

/-- The header becomes the current one, with another cursor. -/
def moved (a : Addr) (cursor : Nat) : UttMemory :=
  { m.withCursor a cursor with current_ := some a }

section Lists

variable {m} {m' : UttMemory} {front back cells : List Addr} {a c : Addr} {n : Nat}

theorem mem_owned : a ∈ m.owned cells ↔ ∃ h ∈ cells, a = h ∨ m.buffer h = some a := by
  unfold owned
  simp only [List.mem_flatMap, List.mem_append, Option.mem_toList, List.mem_singleton]
  exact exists_congr fun h => and_congr_right fun _ => or_comm

theorem owned_append (more : List Addr) : m.owned (cells ++ more) = m.owned cells ++ m.owned more :=
  List.flatMap_append

theorem owned_congr (h : ∀ a ∈ cells, m'.buffer a = m.buffer a) :
    m'.owned cells = m.owned cells :=
  List.flatMap_congr fun a ha => by rw [h a ha]

theorem contents_withCursor (b : Addr) : (m.withCursor a n).contents b =
    if b = a then { m.contents a with cursor := n } else m.contents b := Function.update_apply ..

@[simp] theorem next_withCursor : (m.withCursor a n).next = m.next := by
  funext b
  unfold next
  rw [contents_withCursor]
  split
  · next h => rw [h]
  · rfl

@[simp] theorem buffer_withCursor : (m.withCursor a n).buffer = m.buffer := by
  funext b
  unfold buffer
  rw [contents_withCursor]
  split
  · next h => rw [h]
  · rfl

theorem owned_moved : (m.moved c n).owned cells = m.owned cells :=
  owned_congr fun b _ => congrFun buffer_withCursor b

theorem read_eq (ha : a ∈ m.blocks) : m.read a = some (m.contents a) := if_pos ha

theorem setCursor_eq (ha : a ∈ m.blocks) : m.setCursor a n = some (m.withCursor a n) := by
  unfold setCursor
  rw [read_eq ha]
  exact if_pos ha

theorem Stands.head_eq (h : m.Stands front back) : m.head_ = (front ++ back).head? :=
  h.linked.first_eq

theorem Stands.mem_blocks (h : m.Stands front back) (ha : a ∈ front ++ back) : a ∈ m.blocks :=
  h.live a (mem_owned.mpr ⟨a, ha, .inl rfl⟩)

/-- There is no header, or a head and a current one. -/
theorem Stands.cases (h : m.Stands front back) :
    (front = [] ∧ back = [] ∧ m.head_ = none ∧ m.current_ = none) ∨
      ∃ init c head, front = init ++ [c] ∧ m.head_ = some head ∧ m.current_ = some c ∧
        c ∈ m.blocks := by
  rcases List.eq_nil_or_concat' front with rfl | ⟨init, c, rfl⟩
  · obtain rfl := h.empty rfl
    exact .inl ⟨rfl, rfl, h.head_eq, h.current⟩
  · obtain ⟨head, hhead⟩ : ∃ head, m.head_ = some head := by
      rw [h.head_eq]
      exact Option.ne_none_iff_exists'.mp (by simp)
    have hcurrent : m.current_ = some c := by
      rw [h.current, List.getLast?_concat]
    exact .inr ⟨init, c, head, rfl, hhead, hcurrent, h.mem_blocks (by simp)⟩

/-- The current header is moved back, or stays, and the list is the same. -/
theorem Stands.moved {post : List Addr} (h : m.Stands (front ++ c :: post) back) (n : Nat) :
    (m.moved c n).Stands (front ++ [c]) (post ++ back) := by
  have hlist : front ++ [c] ++ (post ++ back) = front ++ c :: post ++ back := by
    simp
  have hnext : (m.moved c n).next = m.next := next_withCursor
  refine ⟨?_, ?_, ?_, ?_, ?_, h.distinct⟩
  · rw [hnext, hlist]
    exact h.linked
  · rw [List.getLast?_concat]
    rfl
  · intro hempty
    exact absurd hempty (by simp)
  · rw [hlist, owned_moved]
    exact h.nodup
  · rw [hlist, owned_moved]
    exact h.live

/-- What the loop of `setStatus` returns when it goes through these headers. -/
def found (cells : List Addr) (st : UttMemoryStatus) : Bool × UttMemory :=
  match st.savedCurrent with
  | none => (false, m)
  | some c =>
    if c ∈ cells ∧ m.Settable c st.savedCursor then (true, m.moved c st.savedCursor) else (false, m)

/-- The loop ends at the current header. -/
theorem search_eq {first : Option Addr} {st : UttMemoryStatus}
    (hlinked : Linked m.next first (cells ++ back)) (hcurrent : m.current_ = cells.getLast?)
    (hne : cells ≠ []) (hlive : ∀ a ∈ cells, a ∈ m.blocks) (hn : cells.length ≤ n) :
    m.search st n first = some (m.found cells st) := by
  induction cells generalizing first n with
  | nil => exact absurd rfl hne
  | cons a cells ih =>
    cases n with
    | zero => cases hn
    | succ n =>
      have hnodup := hlinked.nodup
      rw [List.cons_append] at hlinked hnodup
      have hrest : a ∉ cells := fun h =>
        (List.nodup_cons.mp hnodup).1 (List.mem_append_left back h)
      have ha := hlive a List.mem_cons_self
      cases hlinked with
      | cons hlinked =>
        unfold search
        by_cases hfound : some a = st.savedCurrent
        · rw [if_pos hfound, read_eq ha, Option.bind_eq_bind, Option.bind_some, setCursor_eq ha]
          unfold found
          rw [← hfound]
          by_cases hset : m.Settable a st.savedCursor
          · rw [if_neg (not_not.mpr hset.1), if_neg (not_lt.mpr hset.2.1),
              if_neg (not_lt.mpr hset.2.2)]
            exact (congrArg some (if_pos ⟨List.mem_cons_self, hset⟩)).symm
          · have hmissed : ¬(a ∈ a :: cells ∧ m.Settable a st.savedCursor) := fun h => hset h.2
            simp only [if_neg hmissed]
            split
            · rfl
            · split
              · rfl
              · split
                · rfl
                · rename_i haligned hlow hhigh
                  exact absurd ⟨not_not.mp haligned, not_lt.mp hlow, not_lt.mp hhigh⟩ hset
        · have hskip : m.found (a :: cells) st = m.found cells st := by
            unfold found
            split
            · rfl
            · rename_i c hc
              have hca : c ≠ a := by
                rintro rfl
                exact hfound hc.symm
              simp only [List.mem_cons, hca, false_or]
          rw [if_neg hfound, hskip]
          cases cells with
          | nil =>
            have hlast : some a = m.current_ := hcurrent.symm
            rw [if_pos hlast]
            unfold found
            split
            · rfl
            · rw [if_neg fun h => List.not_mem_nil h.1]
          | cons b cells =>
            have hnot : ¬ some a = m.current_ := by
              intro h
              rw [hcurrent, List.getLast?_cons_cons] at h
              exact hrest (List.mem_of_getLast? h.symm)
            rw [if_neg hnot, read_eq ha, Option.bind_eq_bind, Option.bind_some]
            rw [List.getLast?_cons_cons] at hcurrent
            exact ih hlinked hcurrent (List.cons_ne_nil b cells)
              (fun d hd => hlive d (List.mem_cons_of_mem a hd)) (Nat.le_of_succ_le_succ hn)

theorem Stands.length_le (h : m.Stands front back) : (front ++ back).length ≤ m.blocks.length :=
  (List.Nodup.subperm h.linked.nodup fun _ ha => h.mem_blocks ha).length_le

/-- A status that can be set and is then the status again. -/
def Fits (m : UttMemory) (front : List Addr) (st : UttMemoryStatus) : Prop :=
  match st.savedCurrent with
  | none => front = [] ∧ st.savedCursor = 0
  | some c => c ∈ front ∧ m.Settable c st.savedCursor

theorem setStatus_nil (h : m.Stands [] []) (st : UttMemoryStatus) :
    m.setStatus st =
      some (if st.savedCurrent ≠ none ∨ st.savedCursor ≠ 0 then false else true, m) := by
  have hhead : m.head_ = none := h.head_eq
  have hcurrent : m.current_ = none := h.current
  unfold setStatus
  rw [hhead, hcurrent]

theorem setStatus_cons {rest : List Addr} (h : m.Stands (a :: rest) back) (st : UttMemoryStatus) :
    m.setStatus st = some (if st.savedCurrent = none ∧ st.savedCursor = 0 then
      (true, m.moved a (aligned sizeofHeader)) else m.found (a :: rest) st) := by
  have hhead : m.head_ = some a := h.head_eq
  have ha : a ∈ m.blocks := h.mem_blocks List.mem_cons_self
  obtain ⟨current, hcurrent⟩ : ∃ current, m.current_ = some current := by
    rw [h.current, List.getLast?_cons]
    exact ⟨_, rfl⟩
  simp only [setStatus, hhead, hcurrent]
  by_cases hst : st.savedCurrent = none ∧ st.savedCursor = 0
  · rw [if_pos hst, if_pos hst, setCursor_eq ha]
    rfl
  · rw [if_neg hst, if_neg hst]
    have hlength := h.length_le
    rw [List.length_append] at hlength
    exact search_eq (hhead ▸ h.linked) h.current (List.cons_ne_nil a rest)
      (fun b hb => h.mem_blocks (List.mem_append_left back hb)) (by omega)

theorem getStatus_moved (hhead : m.head_ ≠ none) (hc : c ∈ m.blocks) :
    (m.moved c n).getStatus = some (some ⟨some c, n⟩) := by
  obtain ⟨head, hhead⟩ := Option.ne_none_iff_exists'.mp hhead
  have hcontents : (m.moved c n).contents c = { m.contents c with cursor := n } :=
    (contents_withCursor c).trans (if_pos rfl)
  have hread : (m.moved c n).read c = some ((m.moved c n).contents c) := if_pos hc
  rw [hcontents] at hread
  unfold getStatus
  rw [show (m.moved c n).head_ = some head from hhead,
    show (m.moved c n).current_ = some c from rfl]
  simp only [hread, Option.map_some]

theorem setStatus_restores_iff (h : m.Stands front back) (st : UttMemoryStatus) :
    (∃ m', m.setStatus st = some (true, m') ∧ m'.getStatus = some (some st)) ↔
      m.Fits front st := by
  obtain ⟨saved, cursor⟩ := st
  cases front with
  | nil =>
    obtain rfl := h.empty rfl
    have hhead : m.head_ = none := h.head_eq
    have hcurrent : m.current_ = none := h.current
    have hget : m.getStatus = some (some ⟨none, 0⟩) := by
      unfold getStatus
      rw [hhead, hcurrent]
    rw [setStatus_nil h]
    cases saved with
    | some c => simp [Fits]
    | none =>
      by_cases hcursor : cursor = 0
      · simp [Fits, hcursor, hget]
      · simp [Fits, hcursor]
  | cons a rest =>
    have hhead : m.head_ = some a := h.head_eq
    have hne : m.head_ ≠ none := by rw [hhead]; exact Option.some_ne_none a
    rw [setStatus_cons h]
    cases saved with
    | none =>
      have hnot : ¬ m.Fits (a :: rest) ⟨none, cursor⟩ := fun h => List.cons_ne_nil a rest h.1
      refine iff_of_false ?_ hnot
      rintro ⟨m', hset, hget⟩
      by_cases hcursor : cursor = 0
      · rw [if_pos ⟨rfl, hcursor⟩] at hset
        cases hset
        rw [getStatus_moved hne (h.mem_blocks List.mem_cons_self)] at hget
        cases hget
      · rw [if_neg fun h => hcursor h.2] at hset
        cases hset
    | some c =>
      have hst : ¬((some c : Option Addr) = none ∧ cursor = 0) := fun h => by cases h.1
      rw [if_neg hst]
      by_cases hfits : c ∈ a :: rest ∧ m.Settable c cursor
      · have hfound : m.found (a :: rest) ⟨some c, cursor⟩ = (true, m.moved c cursor) :=
          if_pos hfits
        refine iff_of_true ⟨m.moved c cursor, by rw [hfound], ?_⟩ hfits
        exact getStatus_moved hne (h.mem_blocks (List.mem_append_left back hfits.1))
      · have hfound : m.found (a :: rest) ⟨some c, cursor⟩ = (false, m) := if_neg hfits
        refine iff_of_false ?_ hfits
        rintro ⟨m', hset, -⟩
        rw [hfound] at hset
        cases hset

/-! ## What is freed -/

/-- These addresses are freed. -/
def without (m : UttMemory) (freed : List Addr) : UttMemory :=
  { m with blocks := m.blocks.diff freed }

theorem free_eq {buffer : Option Addr} (h : ∀ a ∈ buffer.toList, a ∈ m.blocks) :
    free buffer m = some (m.without buffer.toList) := by
  cases buffer with
  | none => rfl
  | some b =>
    have hb : b ∈ m.blocks := h b List.mem_cons_self
    refine (if_pos hb).trans ?_
    unfold without
    rw [Option.toList_some, List.diff_cons, List.diff_nil]

theorem without_without (freed more : List Addr) :
    (m.without freed).without more = m.without (freed ++ more) := by
  unfold without
  rw [List.diff_append]

theorem release_cons {m₁ m₂ : UttMemory} {freed : List Addr} (ha : a ∈ m.blocks)
    (hbuffer : free (m.buffer a) m = some m₁) (hclue : free (some a) m₁ = some m₂)
    (hrest : release n (m.next a) m₂ = some (freed, m')) :
    release (n + 1) (some a) m = some ((m.buffer a).toList ++ a :: freed, m') := by
  unfold buffer at hbuffer
  unfold next at hrest
  unfold release
  rw [read_eq ha, Option.bind_eq_bind, Option.bind_some, hbuffer, Option.bind_eq_bind,
    Option.bind_some, hclue, Option.bind_eq_bind, Option.bind_some, hrest]
  rfl

/-- Each header is freed behind its buffer. -/
theorem release_eq {first : Option Addr} (hlinked : Linked m.next first cells)
    (hnodup : (m.owned cells).Nodup) (hlive : ∀ a ∈ m.owned cells, a ∈ m.blocks)
    (hn : cells.length < n) :
    release n first m = some (m.owned cells, m.without (m.owned cells)) := by
  induction cells generalizing m first n with
  | nil =>
    cases hlinked
    cases n with
    | zero => cases hn
    | succ n => rfl
  | cons a cells ih =>
    cases n with
    | zero => cases hn
    | succ n =>
      cases hlinked with
      | cons hlinked =>
        have howned : m.owned (a :: cells) =
            (m.buffer a).toList ++ ([a] ++ m.owned cells) := by
          unfold owned
          rw [List.flatMap_cons, List.append_assoc]
        rw [howned] at hnodup hlive ⊢
        have ha : a ∈ m.blocks := hlive a (by simp)
        obtain ⟨-, hrest, hbuffer⟩ := List.nodup_append'.mp hnodup
        obtain ⟨-, hrest, hcell⟩ := List.nodup_append'.mp hrest
        have hfirst : free (m.buffer a) m = some (m.without (m.buffer a).toList) :=
          free_eq fun b hb => hlive b (List.mem_append_left _ hb)
        have hsecond : free (some a) (m.without (m.buffer a).toList) =
            some (m.without ((m.buffer a).toList ++ [a])) := by
          rw [← without_without]
          refine free_eq fun b hb => ?_
          obtain rfl : b = a := List.mem_singleton.mp hb
          refine List.mem_diff_of_mem ha fun hmem => ?_
          exact hbuffer hmem (List.mem_append_left _ List.mem_cons_self)
        have hstill : ∀ b ∈ m.owned cells, b ∈ (m.without ((m.buffer a).toList ++ [a])).blocks := by
          intro b hb
          have hlive := hlive b (List.mem_append_right _ (List.mem_append_right _ hb))
          refine List.mem_diff_of_mem hlive fun hmem => ?_
          rcases List.mem_append.mp hmem with hmem | hmem
          · exact hbuffer hmem (List.mem_append_right _ hb)
          · exact hcell hmem hb
        have hlast : release n (m.next a) (m.without ((m.buffer a).toList ++ [a])) =
            some (m.owned cells, (m.without ((m.buffer a).toList ++ [a])).without
              (m.owned cells)) :=
          @ih (m.without ((m.buffer a).toList ++ [a])) n _ hlinked hrest hstill
            (Nat.lt_of_succ_lt_succ hn)
        rw [release_cons ha hfirst hsecond hlast, without_without, List.append_assoc]
        rfl

/-- All of the list is freed, and the memory is empty. -/
theorem freeAll_spec (h : m.Stands front back) :
    ∃ m', m.freeAll = some (m.owned (front ++ back), m') ∧ m'.Stands [] [] ∧
      ∀ a, a ∈ m'.blocks ↔ a ∈ m.blocks ∧ a ∉ m.owned (front ++ back) := by
  have hstands : ∀ m' : UttMemory, m'.head_ = none → m'.current_ = none →
      m'.blocks.Nodup → m'.Stands [] [] := by
    intro m' hhead hcurrent hnodup
    refine ⟨?_, hcurrent, fun _ => rfl, List.nodup_nil, fun _ hb => absurd hb List.not_mem_nil,
      hnodup⟩
    rw [hhead]
    exact .nil
  have hlinked := h.linked
  cases hlist : front ++ back with
  | nil =>
    have hhead : m.head_ = none := by
      rw [h.head_eq, hlist]
      rfl
    obtain ⟨rfl, -⟩ := List.append_eq_nil_iff.mp hlist
    refine ⟨m, ?_, hstands m hhead h.current h.distinct, fun a => ?_⟩
    · unfold freeAll
      rw [hhead]
      rfl
    · exact (and_iff_left List.not_mem_nil).symm
  | cons head rest =>
    have hhead : m.head_ = some head := by
      rw [h.head_eq, hlist]
      rfl
    have hrelease := release_eq h.linked h.nodup h.live (Nat.lt_succ_of_le h.length_le)
    rw [hlist, hhead] at hrelease
    refine ⟨{ m.without (m.owned (head :: rest)) with current_ := none, head_ := none }, ?_, ?_, ?_⟩
    · unfold freeAll
      rw [hhead]
      simp only [hrelease, Option.bind_eq_bind, Option.bind_some]
    · exact hstands _ rfl rfl h.distinct.diff
    · exact fun a => h.distinct.mem_sdiff_iff

/-! ## Alignment -/

theorem aligned_sizeofHeader : aligned sizeofHeader = 32 := by decide

theorem eq_aligned_iff (h : n < 2 ^ 31) : n = aligned n ↔ 8 ∣ n := by
  have hn : toSInt n = n := by
    unfold toSInt
    rw [Int.bmod_eq_of_le] <;> omega
  unfold aligned align8
  rw [hn]
  unfold toULong
  by_cases hlow : n + 7 < 2 ^ 31
  · have hup : toSInt (n + 7) = n + 7 := by
      unfold toSInt
      rw [Int.bmod_eq_of_le] <;> omega
    rw [hup]
    omega
  · have hup : toSInt (n + 7) = n + 7 - 2 ^ 32 := by
      unfold toSInt
      rw [Int.bmod_def, if_neg] <;> omega
    rw [hup]
    omega

/-! ## A new block -/

theorem malloc_eq_some {p : Addr} :
    m.malloc p = some m' ↔ p ∉ m.blocks ∧ { m with blocks := p :: m.blocks } = m' := by
  unfold malloc
  split
  · exact iff_of_false (fun h => by cases h) fun h => h.1 ‹_›
  · rw [Option.some.injEq, and_iff_right ‹_›]

theorem write_eq {h : UttMemoryHeader} (ha : a ∈ m.blocks) :
    m.write a h = some { m with contents := Function.update m.contents a h } := if_pos ha

/-- The header at `p` is the current one, and the one that was current names it. -/
structure Extended (m m' : UttMemory) (p : Addr) : Prop where
  head : m'.head_ = some (m.head_.getD p)
  current : m'.current_ = some p
  new : m'.next p = none
  old : ∀ a, a ≠ p → m'.contents a =
    if m.current_ = some a then { m.contents a with next := some p } else m.contents a

theorem header_spec {p : Addr} (h : m.Stands front back) (hheader : m.header p = some m') :
    p ∉ m.blocks ∧ m'.blocks = p :: m.blocks ∧ m.Extended m' p := by
  unfold header at hheader
  obtain ⟨m₁, hmalloc, hheader⟩ := Option.bind_eq_some_iff.mp hheader
  obtain ⟨hp, rfl⟩ := malloc_eq_some.mp hmalloc
  rw [write_eq List.mem_cons_self, Option.bind_eq_bind, Option.bind_some] at hheader
  refine ⟨hp, ?_⟩
  rcases h.cases with ⟨-, -, hhead, hcurrent⟩ | ⟨init, c, head, -, hhead, hcurrent, hc⟩
  · simp only [hhead, Option.some.injEq] at hheader
    subst hheader
    refine ⟨rfl, by rw [hhead]; rfl, rfl, ?_, fun a ha => ?_⟩
    · unfold next
      dsimp only
      rw [Function.update_self]
    · rw [hcurrent, if_neg fun h => by cases h]
      exact Function.update_of_ne ha ..
  · have hcp : c ≠ p := fun heq => hp (heq ▸ hc)
    simp only [hhead, hcurrent] at hheader
    rw [Option.bind_eq_bind, Option.bind_some, read_eq (List.mem_cons_of_mem p hc),
      Option.bind_eq_bind, Option.bind_some, write_eq (List.mem_cons_of_mem p hc),
      Option.bind_some, Option.some.injEq] at hheader
    subst hheader
    refine ⟨rfl, by rw [hhead]; rfl, rfl, ?_, fun a ha => ?_⟩
    · unfold next
      dsimp only
      rw [Function.update_of_ne hcp.symm, Function.update_self]
    · dsimp only
      by_cases hac : a = c
      · subst hac
        rw [Function.update_self, Function.update_of_ne hcp, hcurrent, if_pos rfl]
      · rw [Function.update_of_ne hac, Function.update_of_ne ha, hcurrent,
          if_neg fun h => hac (Option.some.inj h).symm]

/-- Two addresses that were not in use are, and the header at `p` has the buffer at `q`. -/
structure Allocated (m m' : UttMemory) (Size : Int) (p q : Addr) : Prop
    extends Extended m m' p where
  fresh : p ∉ m.blocks
  fresh_buffer : q ∉ m.blocks
  ne : q ≠ p
  blocks : m'.blocks = q :: p :: m.blocks
  buffer : m'.buffer p = some q
  cursor : (m'.contents p).cursor = toULong Size

theorem alloc_spec {Size : Int} {p q r : Addr} (h : m.Stands front back)
    (halloc : m.alloc Size p q = some (r, m')) : m.Allocated m' Size p q := by
  unfold alloc at halloc
  obtain ⟨m₁, hheader, halloc⟩ := Option.bind_eq_some_iff.mp halloc
  obtain ⟨hp, hblocks, hextended⟩ := header_spec h hheader
  obtain ⟨m₂, hmalloc, halloc⟩ := Option.bind_eq_some_iff.mp halloc
  obtain ⟨hq, rfl⟩ := malloc_eq_some.mp hmalloc
  have hpm : p ∈ q :: m₁.blocks := by
    rw [hblocks]
    exact List.mem_cons_of_mem q List.mem_cons_self
  dsimp only at halloc
  rw [hextended.current, Option.bind_eq_bind, Option.bind_some, read_eq hpm, Option.bind_eq_bind,
    Option.bind_some, write_eq hpm, Option.bind_eq_bind, Option.bind_some, Option.some.injEq,
    Prod.mk.injEq] at halloc
  obtain ⟨-, rfl⟩ := halloc
  rw [hblocks, List.mem_cons, not_or] at hq
  refine ⟨⟨hextended.head, rfl, ?_, fun a ha => ?_⟩, hp, hq.2, hq.1, ?_, ?_, ?_⟩
  · unfold next
    dsimp only
    rw [Function.update_self]
    exact hextended.new
  · dsimp only
    rw [Function.update_of_ne ha]
    exact hextended.old a ha
  · dsimp only
    rw [hblocks]
  · unfold buffer
    dsimp only
    rw [Function.update_self]
  · dsimp only
    rw [Function.update_self]

theorem header_isSome {p : Addr} (h : m.Stands front back) (hp : p ∉ m.blocks) :
    (m.header p).isSome := by
  unfold header
  rw [malloc_eq_some.mpr ⟨hp, rfl⟩, Option.bind_eq_bind, Option.bind_some,
    write_eq List.mem_cons_self, Option.bind_eq_bind, Option.bind_some]
  rcases h.cases with ⟨-, -, hhead, -⟩ | ⟨init, c, head, -, hhead, hcurrent, hc⟩
  · simp only [hhead, Option.isSome_some]
  · have hc : c ∈ p :: m.blocks := List.mem_cons_of_mem p hc
    simp only [hhead, hcurrent, Option.bind_eq_bind, Option.bind_some]
    rw [read_eq hc, Option.bind_some, write_eq hc]
    rfl

theorem alloc_isSome {p q : Addr} (h : m.Stands front back) (hp : p ∉ m.blocks)
    (hq : q ∉ m.blocks) (hne : q ≠ p) (Size : Int) : (m.alloc Size p q).isSome := by
  obtain ⟨m₁, hheader⟩ := Option.isSome_iff_exists.mp (header_isSome h hp)
  obtain ⟨-, hblocks, hextended⟩ := header_spec h hheader
  have hq₁ : q ∉ m₁.blocks := by
    rw [hblocks, List.mem_cons, not_or]
    exact ⟨hne, hq⟩
  have hpm : p ∈ q :: m₁.blocks := by
    rw [hblocks]
    exact List.mem_cons_of_mem q List.mem_cons_self
  unfold alloc
  rw [hheader, Option.bind_eq_bind, Option.bind_some, malloc_eq_some.mpr ⟨hq₁, rfl⟩,
    Option.bind_eq_bind, Option.bind_some]
  simp only [hextended.current, Option.bind_eq_bind, Option.bind_some]
  rw [read_eq hpm, Option.bind_some, write_eq hpm]
  rfl

section New

variable {Size : Int} {p q : Addr} (h : m.Allocated m' Size p q)

include h

theorem Allocated.next_old (ha : a ≠ p) :
    m'.next a = if m.current_ = some a then some p else m.next a := by
  unfold next
  rw [h.old a ha]
  split <;> rfl

theorem Allocated.buffer_old (ha : a ≠ p) : m'.buffer a = m.buffer a := by
  unfold UttMemory.buffer
  rw [h.old a ha]
  split <;> rfl

theorem Allocated.settable_old (ha : a ≠ p) {cursor : Nat} :
    m'.Settable a cursor ↔ m.Settable a cursor := by
  unfold Settable
  rw [h.old a ha]
  split <;> rfl

theorem Allocated.owned_eq (hp : p ∉ cells) :
    m'.owned (cells ++ [p]) = m.owned cells ++ [q, p] := by
  have hold : m'.owned cells = m.owned cells :=
    owned_congr fun a ha => h.buffer_old fun heq => hp (heq ▸ ha)
  have hnew : m'.owned [p] = [q, p] := by
    unfold owned
    rw [List.flatMap_singleton, h.buffer]
    rfl
  rw [owned_append, hold, hnew]

theorem Allocated.linked (hm : m.Stands front back) (hp : p ∉ front) :
    Linked m'.next m'.head_ (front ++ [p]) := by
  rw [h.head]
  rcases hm.cases with ⟨rfl, -, hhead, -⟩ | ⟨init, c, head, rfl, hhead, hcurrent, -⟩
  · rw [hhead, Option.getD_none]
    refine .cons ?_
    rw [h.new]
    exact .nil
  · have hlinked := hm.linked
    have hnodup := hm.linked.nodup
    rw [List.append_assoc, List.singleton_append] at hlinked hnodup
    have hc : c ∉ init := fun hc =>
      (List.nodup_append'.mp hnodup).2.2 hc List.mem_cons_self
    rw [hhead] at hlinked ⊢
    rw [List.append_assoc, List.singleton_append]
    refine hlinked.link (fun b hb => ?_) ?_ h.new
    · have hbp : b ≠ p := fun heq => hp (heq ▸ List.mem_append_left _ hb)
      have hbc : ¬ m.current_ = some b := by
        rw [hcurrent]
        intro heq
        exact hc (Option.some.inj heq ▸ hb)
      rw [h.next_old hbp, if_neg hbc]
    · have hcp : c ≠ p := fun heq => hp (heq ▸ List.mem_append_right _ List.mem_cons_self)
      rw [h.next_old hcp, if_pos hcurrent]

/-- What stood behind the current header is cut off. -/
theorem Allocated.stands (hm : m.Stands front back) : m'.Stands (front ++ [p]) [] := by
  have hp : p ∉ front := fun hp => h.fresh (hm.mem_blocks (List.mem_append_left back hp))
  have hnodup := hm.nodup
  have hlive := hm.live
  rw [owned_append] at hnodup hlive
  have hused : ∀ a ∈ m.owned front, a ∈ m.blocks := fun a ha =>
    hlive a (List.mem_append_left _ ha)
  refine ⟨?_, ?_, fun hempty => absurd hempty (by simp), ?_, ?_, ?_⟩
  · rw [List.append_nil]
    exact h.linked hm hp
  · rw [List.getLast?_concat]
    exact h.current
  · rw [List.append_nil, h.owned_eq hp, List.nodup_append']
    refine ⟨(List.nodup_append'.mp hnodup).1, by simp [h.ne], fun a ha hnew => ?_⟩
    rcases List.mem_cons.mp hnew with rfl | hnew
    · exact h.fresh_buffer (hused a ha)
    · exact h.fresh (List.mem_singleton.mp hnew ▸ hused a ha)
  · rw [List.append_nil, h.owned_eq hp, h.blocks]
    intro a ha
    rcases List.mem_append.mp ha with ha | ha
    · exact List.mem_cons_of_mem q (List.mem_cons_of_mem p (hused a ha))
    · rcases List.mem_cons.mp ha with rfl | ha
      · exact List.mem_cons_self
      · rw [List.mem_singleton.mp ha]
        exact List.mem_cons_of_mem q List.mem_cons_self
  · rw [h.blocks]
    refine List.nodup_cons.mpr ⟨?_, List.nodup_cons.mpr ⟨h.fresh, hm.distinct⟩⟩
    rw [List.mem_cons, not_or]
    exact ⟨h.ne, h.fresh_buffer⟩

end New

end Lists

/-! ## The calls -/

section Calls

variable {u u' : Use} {front back : List Addr}

theorem Kept.subset (h : Kept u) {saved : List UttMemoryStatus}
    (hsub : ∀ st ∈ saved, st ∈ u.saved) : Kept ⟨u.memory, saved⟩ :=
  ⟨h.reachable, h.freed, fun st hst => h.restored st (hsub st hst)⟩

/-- What holds of a memory when nothing behind the current header is lost. -/
theorem kept_iff (h : u.memory.Stands front back) :
    Kept u ↔ (∀ a ∈ u.memory.blocks, a ∈ u.memory.owned (front ++ back)) ∧
      ∀ st ∈ u.saved, u.memory.Fits front st := by
  constructor
  · intro hkept
    refine ⟨fun a ha => ?_, fun st hst => (setStatus_restores_iff h st).mp (hkept.restored st hst)⟩
    obtain ⟨c, hc, ha⟩ := hkept.reachable a ha
    exact mem_owned.mpr ⟨c, h.linked.reaches_iff.mp hc, ha⟩
  · rintro ⟨hall, hfits⟩
    obtain ⟨m, hfree, -⟩ := freeAll_spec h
    refine ⟨fun a ha => ?_, ⟨_, m, hfree, h.nodup, fun a => ⟨h.live a, hall a⟩⟩,
      fun st hst => (setStatus_restores_iff h st).mpr (hfits st hst)⟩
    obtain ⟨c, hc, ha⟩ := mem_owned.mp (hall a ha)
    exact ⟨c, h.linked.reaches_iff.mpr hc, ha⟩

/-- When the current header is moved back, nothing is lost, and only statuses may not fit. -/
theorem kept_moved {m : UttMemory} {saved saved' : List UttMemoryStatus} {c : Addr}
    {post : List Addr} {n : Nat} (h : m.Stands (front ++ c :: post) back)
    (hkept : Kept ⟨m, saved⟩) (hfits : ∀ st ∈ saved', (m.moved c n).Fits (front ++ [c]) st) :
    Kept ⟨m.moved c n, saved'⟩ := by
  refine (kept_iff (h.moved n)).mpr ⟨fun a ha => ?_, hfits⟩
  have hall := ((kept_iff h).mp hkept).1 a ha
  have hlist : front ++ [c] ++ (post ++ back) = front ++ c :: post ++ back := by
    simp
  rwa [hlist, owned_moved]

/-- The memory is a list with a current header. -/
def Listed (u : Use) : Prop := ∃ front back, u.memory.Stands front back

/-- A call leads to a list again, and it keeps the promise exactly if the memory was spared. -/
def Steps (u : Use) (c : Call) (u' : Use) : Prop :=
  Listed u' ∧ (Kept u → (Kept u' ↔ Spared u c))

theorem clear_steps (h : u.memory.Stands front back) (hcall : call u .clear = some u') :
    Steps u .clear u' := by
  obtain ⟨m', hclear, rfl⟩ := Option.map_eq_some_iff.mp hcall
  have hhead := h.head_eq
  unfold clear at hclear
  cases front with
  | nil =>
    obtain rfl := h.empty rfl
    have hnone : u.memory.head_ = none := hhead
    rw [hnone, Option.some.injEq] at hclear
    subst hclear
    refine ⟨⟨_, _, h⟩, fun hkept => iff_of_true ?_ trivial⟩
    exact hkept.subset fun st hst => absurd hst List.not_mem_nil
  | cons a rest =>
    have hsome : u.memory.head_ = some a := hhead
    simp only [hsome, setCursor_eq (h.mem_blocks List.mem_cons_self), Option.bind_eq_bind,
      Option.bind_some, Option.some.injEq] at hclear
    have hmoved : u.memory.moved a (aligned sizeofHeader) = m' := hclear
    subst hmoved
    have hstands : u.memory.Stands ([] ++ a :: rest) back := h
    exact ⟨⟨_, _, hstands.moved _⟩, fun hkept => iff_of_true
      (kept_moved hstands hkept fun st hst => absurd hst List.not_mem_nil) trivial⟩

theorem freeAll_steps (h : u.memory.Stands front back) (hcall : call u .freeAll = some u') :
    Steps u .freeAll u' := by
  obtain ⟨⟨freed, m'⟩, hfree, rfl⟩ := Option.map_eq_some_iff.mp hcall
  obtain ⟨m₁, hspec, hstands, hblocks⟩ := freeAll_spec h
  rw [hspec, Option.some.injEq, Prod.mk.injEq] at hfree
  obtain ⟨-, rfl⟩ := hfree
  refine ⟨⟨_, _, hstands⟩, fun hkept => iff_of_true ?_ trivial⟩
  refine (kept_iff hstands).mpr ⟨fun a ha => ?_, fun st hst => absurd hst List.not_mem_nil⟩
  obtain ⟨hused, hleft⟩ := (hblocks a).mp ha
  exact absurd (((kept_iff h).mp hkept).1 a hused) hleft

theorem getStatus_steps (h : u.memory.Stands front back) (hcall : call u .getStatus = some u') :
    Steps u .getStatus u' := by
  obtain ⟨st, hget, rfl⟩ := Option.map_eq_some_iff.mp hcall
  refine ⟨⟨_, _, h⟩, fun hkept => ?_⟩
  obtain ⟨hall, hfits⟩ := (kept_iff h).mp hkept
  rw [@kept_iff ⟨u.memory, st.toList ++ u.saved⟩ _ _ h, and_iff_right hall,
    List.forall_mem_append, and_iff_left hfits]
  unfold getStatus at hget
  rcases h.cases with ⟨rfl, rfl, hhead, hcurrent⟩ | ⟨init, c, head, rfl, hhead, hcurrent, hlive⟩
  · rw [hhead, hcurrent, Option.some.injEq] at hget
    subst hget
    refine iff_of_true (fun other hother => ?_) fun c hc => ?_
    · rw [List.mem_singleton.mp hother]
      exact ⟨rfl, rfl⟩
    · rw [hcurrent] at hc
      cases hc
  · have hc : c ∈ init ++ [c] := List.mem_append_right _ List.mem_cons_self
    simp only [hhead, hcurrent, read_eq hlive, Option.map_some, Option.some.injEq] at hget
    subst hget
    unfold Spared
    rw [hcurrent]
    simp only [Option.toList_some, List.forall_mem_singleton, Option.mem_some_iff, forall_eq']
    constructor
    · rintro ⟨-, haligned, hlow, -⟩
      exact ⟨haligned, hlow⟩
    · rintro ⟨haligned, hlow⟩
      exact ⟨hc, haligned, hlow, Nat.le_refl _⟩

/-- The list ends at the current header. -/
theorem Stands.back_eq_nil_iff {m : UttMemory} (h : m.Stands front back) :
    back = [] ↔ ∀ current ∈ m.current_, m.next current = none := by
  rcases h.cases with ⟨-, rfl, -, hcurrent⟩ | ⟨init, c, head, rfl, -, hcurrent, -⟩
  · rw [hcurrent]
    exact iff_of_true rfl fun c hc => by cases hc
  · have hlinked := h.linked
    rw [List.append_assoc, List.singleton_append] at hlinked
    rw [hcurrent]
    simp only [Option.mem_some_iff, forall_eq']
    have hbehind : m.next c = back.head? := by
      cases hlinked.drop with
      | cons hback => exact hback.first_eq
    rw [hbehind, List.head?_eq_none_iff]

/-- A new block is found with all others exactly if it cut off none. -/
theorem Allocated.all_owned_iff {m m' : UttMemory} {Size : Int} {p q : Addr}
    (h : m.Allocated m' Size p q)
    (hm : m.Stands front back) (hall : ∀ a ∈ m.blocks, a ∈ m.owned (front ++ back)) :
    (∀ a ∈ m'.blocks, a ∈ m'.owned (front ++ [p] ++ [])) ↔ back = [] := by
  have hp : p ∉ front := fun hp => h.fresh (hm.mem_blocks (List.mem_append_left back hp))
  rw [List.append_nil, h.owned_eq hp, h.blocks]
  constructor
  · intro hfound
    cases back with
    | nil => rfl
    | cons b back =>
      have hb : b ∈ m.owned (b :: back) := mem_owned.mpr ⟨b, List.mem_cons_self, .inl rfl⟩
      have hnodup := hm.nodup
      have hused : b ∈ m.blocks := hm.mem_blocks (by simp)
      rw [owned_append] at hnodup
      rcases List.mem_append.mp (hfound b (by simp [hused])) with hmem | hmem
      · exact absurd hb ((List.nodup_append'.mp hnodup).2.2 hmem)
      · rcases List.mem_cons.mp hmem with rfl | hmem
        · exact absurd hused h.fresh_buffer
        · exact absurd (List.mem_singleton.mp hmem ▸ hused) h.fresh
  · rintro rfl
    rw [List.append_nil] at hall
    intro a ha
    rcases List.mem_cons.mp ha with rfl | ha
    · exact List.mem_append_right _ List.mem_cons_self
    · rcases List.mem_cons.mp ha with rfl | ha
      · exact List.mem_append_right _ (List.mem_cons_of_mem _ List.mem_cons_self)
      · exact List.mem_append_left _ (hall a ha)

theorem Allocated.fits_iff {m m' : UttMemory} {Size : Int} {p q : Addr}
    (h : m.Allocated m' Size p q)
    (hm : m.Stands front back) {st : UttMemoryStatus} (hst : m.Fits front st) :
    m'.Fits (front ++ [p]) st ↔ m.head_ ≠ none := by
  obtain ⟨saved, cursor⟩ := st
  cases saved with
  | none =>
    obtain rfl : front = [] := hst.1
    obtain rfl := hm.empty rfl
    have hhead : m.head_ = none := hm.head_eq
    exact iff_of_false (fun hfits => List.cons_ne_nil p [] hfits.1) fun hne => hne hhead
  | some c =>
    obtain ⟨hc, hset⟩ := hst
    have hcp : c ≠ p := fun heq =>
      h.fresh (heq ▸ hm.mem_blocks (List.mem_append_left back hc))
    refine iff_of_true ⟨List.mem_append_left [p] hc, (h.settable_old hcp).mpr hset⟩ ?_
    rw [hm.head_eq]
    intro hempty
    rw [(List.append_eq_nil_iff.mp (List.head?_eq_none_iff.mp hempty)).1] at hc
    cases hc

theorem alloc_steps {Size : Int} {p q : Addr} (h : u.memory.Stands front back)
    (hcall : call u (.alloc Size p q) = some u') : Steps u (.alloc Size p q) u' := by
  obtain ⟨⟨r, m'⟩, halloc, rfl⟩ := Option.map_eq_some_iff.mp hcall
  have hnew := alloc_spec h halloc
  have hstands := hnew.stands h
  refine ⟨⟨_, _, hstands⟩, fun hkept => ?_⟩
  obtain ⟨hall, hfits⟩ := (kept_iff h).mp hkept
  have hsaved : (∀ st ∈ u.saved, m'.Fits (front ++ [p]) st) ↔
      (u.memory.head_ = none → u.saved = []) := by
    constructor
    · intro hstill hhead
      refine List.eq_nil_iff_forall_not_mem.mpr fun st hst => ?_
      exact (hnew.fits_iff h (hfits st hst)).mp (hstill st hst) hhead
    · intro hnone st hst
      refine (hnew.fits_iff h (hfits st hst)).mpr fun hhead => ?_
      rw [hnone hhead] at hst
      cases hst
  rw [@kept_iff ⟨m', u.saved⟩ _ _ hstands, hnew.all_owned_iff h hall, hsaved, h.back_eq_nil_iff]
  exact and_comm

theorem Stands.headers_eq {m : UttMemory} (h : m.Stands front back) :
    m.headers = front ++ back := h.linked.walk_eq h.length_le

/-- A status that is not above the one set still fits. -/
theorem fits_moved {m : UttMemory} {c : Addr} {post : List Addr} {savedCursor : Nat}
    (h : m.Stands (front ++ c :: post) back) {other : UttMemoryStatus}
    (hother : m.Fits (front ++ c :: post) other)
    (hbelow : m.below ⟨some c, savedCursor⟩ other = false) :
    (m.moved c savedCursor).Fits (front ++ [c]) other := by
  obtain ⟨saved, cursor⟩ := other
  cases saved with
  | none => exact absurd hother.1 (by simp)
  | some d =>
    obtain ⟨hd, haligned, hlow, hhigh⟩ := hother
    have hnodup := h.linked.nodup
    rw [List.append_assoc, List.cons_append] at hnodup
    have hc : c ∉ front := fun hc => (List.nodup_append'.mp hnodup).2.2 hc List.mem_cons_self
    have hbehind : behind m.headers c = post ++ back := by
      rw [h.headers_eq, List.append_assoc, List.cons_append]
      exact behind_append hc
    unfold below at hbelow
    simp only [hbehind, decide_eq_false_iff_not, not_or, not_and, not_lt, List.mem_append]
      at hbelow
    obtain ⟨⟨hpost, -⟩, hcursor⟩ := hbelow
    have hcontents := @contents_withCursor m c savedCursor d
    by_cases hdc : d = c
    · subst hdc
      refine ⟨List.mem_append_right _ List.mem_cons_self, haligned, hlow, ?_⟩
      rw [if_pos rfl] at hcontents
      have hmoved : ((m.moved d savedCursor).contents d).cursor = savedCursor :=
        congrArg UttMemoryHeader.cursor hcontents
      rw [hmoved]
      exact hcursor rfl
    · have hfront : d ∈ front := by
        rcases List.mem_append.mp hd with hd | hd
        · exact hd
        · rcases List.mem_cons.mp hd with hd | hd
          · exact absurd hd hdc
          · exact absurd hd hpost
      refine ⟨List.mem_append_left _ hfront, haligned, hlow, ?_⟩
      rw [if_neg hdc] at hcontents
      have hmoved : ((m.moved c savedCursor).contents d).cursor = (m.contents d).cursor :=
        congrArg UttMemoryHeader.cursor hcontents
      rw [hmoved]
      exact hhigh

/-- `setStatus` leaves the memory as it is, or moves the current header back to the saved one, or to
the first one for the status of the empty memory. -/
theorem setStatus_cases {m m' : UttMemory} {st : UttMemoryStatus} {ok : Bool}
    (h : m.Stands front back) (hset : m.setStatus st = some (ok, m')) :
    m' = m ∨ ok = true ∧ ∃ pre c post n, front = pre ++ c :: post ∧ m' = m.moved c n ∧
      (st = ⟨some c, n⟩ ∨ st = ⟨none, 0⟩) := by
  cases front with
  | nil =>
    obtain rfl := h.empty rfl
    rw [setStatus_nil h, Option.some.injEq, Prod.mk.injEq] at hset
    exact .inl hset.2.symm
  | cons a rest =>
    obtain ⟨saved, cursor⟩ := st
    rw [setStatus_cons h, Option.some.injEq] at hset
    by_cases hempty : saved = none ∧ cursor = 0
    · rw [if_pos hempty, Prod.mk.injEq] at hset
      obtain ⟨rfl, rfl⟩ := hempty
      obtain ⟨rfl, rfl⟩ := hset
      exact .inr ⟨rfl, [], a, rest, _, rfl, rfl, .inr rfl⟩
    · rw [if_neg hempty] at hset
      unfold found at hset
      cases saved with
      | none => exact .inl (Prod.mk.inj hset).2.symm
      | some c =>
        by_cases hfits : c ∈ a :: rest ∧ m.Settable c cursor
        · simp only [if_pos hfits, Prod.mk.injEq] at hset
          obtain ⟨rfl, rfl⟩ := hset
          obtain ⟨pre, post, hlist⟩ := List.append_of_mem hfits.1
          exact .inr ⟨rfl, pre, c, post, cursor, hlist, rfl, .inl rfl⟩
        · simp only [if_neg hfits, Prod.mk.injEq] at hset
          exact .inl hset.2.symm

theorem setStatus_steps {st : UttMemoryStatus} (h : u.memory.Stands front back)
    (hcall : call u (.setStatus st) = some u') : Steps u (.setStatus st) u' := by
  obtain ⟨⟨ok, m'⟩, hset, rfl⟩ := Option.map_eq_some_iff.mp hcall
  rcases setStatus_cases h hset with rfl | ⟨rfl, pre, c, post, n, rfl, rfl, hst⟩
  · refine ⟨⟨_, _, h⟩, fun hkept => iff_of_true ?_ trivial⟩
    have hsub : ∀ other ∈ if ok then u.saved.filter fun other => !u.memory.below st other
        else u.saved, other ∈ u.saved := by
      intro other hother
      split at hother
      · exact (List.mem_filter.mp hother).1
      · exact hother
    exact hkept.subset hsub
  · refine ⟨⟨_, _, h.moved n⟩, fun hkept => iff_of_true ?_ trivial⟩
    refine kept_moved h hkept fun other hother => ?_
    obtain ⟨hother, hbelow⟩ := List.mem_filter.mp hother
    rw [Bool.not_eq_true'] at hbelow
    have hfits := ((kept_iff h).mp hkept).2 other hother
    rcases hst with rfl | rfl
    · exact fits_moved h hfits hbelow
    · have hnone : other.savedCurrent = none :=
        Option.isNone_iff_eq_none.mp (Option.isSome_eq_false_iff.mp hbelow)
      unfold Fits at hfits
      rw [hnone] at hfits
      exact absurd hfits.1 (by simp)

theorem call_steps {c : Call} (h : u.memory.Stands front back) (hcall : call u c = some u') :
    Steps u c u' := by
  cases c with
  | alloc Size p q => exact alloc_steps h hcall
  | getStatus => exact getStatus_steps h hcall
  | setStatus st => exact setStatus_steps h hcall
  | clear => exact clear_steps h hcall
  | freeAll => exact freeAll_steps h hcall

theorem init_stands : init.Stands [] [] :=
  ⟨.nil, rfl, fun _ => rfl, List.nodup_nil, fun _ h => absurd h List.not_mem_nil, List.nodup_nil⟩

theorem init_kept : Kept ⟨init, []⟩ :=
  (@kept_iff ⟨init, []⟩ _ _ init_stands).mpr
    ⟨fun _ h => absurd h List.not_mem_nil, fun _ h => absurd h List.not_mem_nil⟩

/-- A status is worth taking of a new block when its size is a multiple of 8 and not less than that
of a header. -/
theorem spared_getStatus_iff {Size : Int} {p q : Addr} (h : u.memory.Stands front back)
    (hcall : call u (.alloc Size p q) = some u') (hpos : 0 ≤ Size) (hsize : Size < 2 ^ 31) :
    Spared u' .getStatus ↔ 8 ∣ Size ∧ 32 ≤ Size := by
  obtain ⟨⟨r, m'⟩, halloc, rfl⟩ := Option.map_eq_some_iff.mp hcall
  have hnew := alloc_spec h halloc
  obtain ⟨n, rfl⟩ := Int.eq_ofNat_of_zero_le hpos
  have hn : n < 2 ^ 31 := by omega
  have hcursor : toULong n = n := by
    unfold toULong
    omega
  unfold Spared
  rw [show ({ u with memory := m' } : Use).memory.current_ = some p from hnew.current]
  simp only [Option.mem_some_iff, forall_eq', hnew.cursor, hcursor]
  rw [eq_aligned_iff hn, aligned_sizeofHeader]
  omega

/-- No call runs on for ever or touches what is not in use. -/
theorem call_isSome (h : Listed u) (c : Call)
    (hfresh : ∀ Size p q, c = .alloc Size p q →
      p ∉ u.memory.blocks ∧ q ∉ u.memory.blocks ∧ q ≠ p) : (call u c).isSome := by
  obtain ⟨front, back, h⟩ := h
  cases c with
  | alloc Size p q =>
    obtain ⟨hp, hq, hne⟩ := hfresh Size p q rfl
    unfold call
    rw [Option.isSome_map]
    exact alloc_isSome h hp hq hne Size
  | getStatus =>
    unfold call getStatus
    rw [Option.isSome_map]
    rcases h.cases with ⟨-, -, hhead, hcurrent⟩ | ⟨init, c, head, -, hhead, hcurrent, hc⟩
    · rw [hhead, hcurrent]
      rfl
    · simp only [hhead, hcurrent, read_eq hc, Option.map_some, Option.isSome_some]
  | setStatus st =>
    unfold call
    rw [Option.isSome_map]
    cases front with
    | nil =>
      obtain rfl := h.empty rfl
      rw [setStatus_nil h]
      rfl
    | cons a rest =>
      rw [setStatus_cons h]
      rfl
  | clear =>
    unfold call clear
    rw [Option.isSome_map]
    cases hlist : front ++ back with
    | nil =>
      have hhead : u.memory.head_ = none := by
        rw [h.head_eq, hlist]
        rfl
      rw [hhead]
      rfl
    | cons a rest =>
      have hhead : u.memory.head_ = some a := by
        rw [h.head_eq, hlist]
        rfl
      have ha : a ∈ front ++ back := by
        rw [hlist]
        exact List.mem_cons_self
      rw [hhead]
      simp only [setCursor_eq (h.mem_blocks ha), Option.bind_eq_bind, Option.bind_some,
        Option.isSome_some]
  | freeAll =>
    obtain ⟨m', hfree, -⟩ := freeAll_spec h
    unfold call
    rw [hfree]
    rfl

/-- Along every sequence of calls, nothing is lost, `freeAll` frees everything once and every status
can be set as long as it stands, exactly if every call is made on a memory that it spares. -/
theorem kept_throughout_iff (calls : List Call) :
    Machine.Throughout Kept call ⟨init, []⟩ calls ↔
      Machine.Along Spared call ⟨init, []⟩ calls :=
  Machine.throughout_iff_along_of (I := Listed)
    (fun _ _ _ ⟨_, _, h⟩ hcall => (call_steps h hcall).1)
    (fun _ _ _ ⟨_, _, h⟩ hkept hcall => (call_steps h hcall).2 hkept)
    ⟨[], [], init_stands⟩ init_kept calls

/-- After `clear`, the second block of two is cut off by a third one. -/
theorem not_kept_throughout_lost : ¬ ∀ calls, Machine.Throughout Kept call ⟨init, []⟩ calls := by
  intro h
  have hany : (Machine.exec (fun _ _ => true) call ⟨init, []⟩
      [.alloc 32 1 2, .alloc 32 3 4, .clear, .alloc 32 5 6]).any (fun u =>
        u.memory.freeAll.map Prod.fst = some [2, 1, 6, 5] ∧ 3 ∈ u.memory.blocks) = true := by
    decide
  obtain ⟨u, hrun, hfacts⟩ := (Option.any_eq_true _ _).mp hany
  rw [decide_eq_true_eq] at hfacts
  obtain ⟨hfreed, hused⟩ := hfacts
  obtain ⟨freed, m, hfree, -, hall⟩ := ((h _).last hrun).freed
  rw [hfree, Option.map_some, Option.some.injEq] at hfreed
  subst hfreed
  exact absurd ((hall 3).mpr hused) (by decide)

/-- A status of a block of five bytes cannot be set. -/
example : ((call ⟨init, []⟩ (.alloc 5 1 2)).bind fun u =>
    u.memory.setStatus ⟨some 1, 5⟩).map Prod.fst = some false := by decide

end Calls

end UttMemory

end Natc.Ats
