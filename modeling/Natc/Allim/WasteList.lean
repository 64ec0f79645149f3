import Mathlib.Data.List.MinMax
import Mathlib.Data.List.Perm.Basic
import Natc.Allim.Shared
import Natc.Lib.Machine
import Natc.Lib.Ring

/-!
# The wasted memory

`allimMemory` allocates chunks of memory until as many bytes are wasted as were asked for, and
frees them again. It keeps the chunks in a ring.
-/

namespace Natc.Allim.WasteList

open Lib Shared

/-- The address of a chunk. -/
abbrev Ptr := Nat

/-- The chunks in memory. An address can be handed out again when it has been freed. -/
structure Heap where
  links : Links Ptr
  live : List Ptr
  /-- Every chunk that was handed out so far. -/
  allocated : List Ptr
  /-- Every chunk that was freed so far. -/
  freed : List Ptr

namespace Heap

variable (h : Heap)

/-- `chunk->mPrev`, where there is a chunk. -/
def mPrev (chunk : Ptr) : Option Ptr :=
  if chunk ∈ h.live then some (h.links.prev chunk) else none

def setPrev (chunk other : Ptr) : Option Heap :=
  if chunk ∈ h.live then some { h with links := h.links.setPrev chunk other } else none

def setNext (chunk other : Ptr) : Option Heap :=
  if chunk ∈ h.live then some { h with links := h.links.setNext chunk other } else none

def handOut (chunk : Ptr) : Heap :=
  { h with live := chunk :: h.live, allocated := chunk :: h.allocated }

def acpMemFree (chunk : Ptr) : Option Heap :=
  if chunk ∈ h.live then
    some { h with live := h.live.erase chunk, freed := chunk :: h.freed }
  else none

end Heap

/-- `acpMemAlloc`: what it returns at each try, and where it puts a chunk. -/
structure Allocator where
  rc : Nat → AcpRc
  place : Nat → List Ptr → Ptr
  fresh : ∀ k live, place k live ∉ live

/-- The head of the list and the memory. -/
abbrev Chunks := Option Ptr × Heap

/-- A new chunk becomes the last one. -/
def linkChunk (aHead : Option Ptr) (sTemp : Ptr) (h : Heap) : Option Chunks :=
  match aHead with
  | none => do
      let h ← h.setNext sTemp sTemp
      let h ← h.setPrev sTemp sTemp
      pure (some sTemp, h)
  | some head => do
      let h ← h.setNext sTemp head
      let last ← h.mPrev head
      let h ← h.setPrev sTemp last
      let last ← h.mPrev head
      let h ← h.setNext last sTemp
      let h ← h.setPrev head sTemp
      pure (some head, h)

/-- The last chunk is taken out and freed. -/
def unlinkChunk (head : Ptr) (h : Heap) : Option Chunks := do
  let sTemp ← h.mPrev head
  let out ← if sTemp = head then pure (none, h) else do
    let before ← h.mPrev sTemp
    let h ← h.setPrev head before
    let before ← h.mPrev sTemp
    let h ← h.setNext before head
    pure (some head, h)
  let h ← out.2.acpMemFree sTemp
  pure (out.1, h)

/-- `k` allocations have been tried. -/
def allimWasteMemory (al : Allocator) (aDest : Int) (k sSize : Nat) (chunks : Chunks)
    (aCurrent : Int) : Option (Chunks × Int) :=
  if aCurrent < aDest ∧ sizeofWasteChunk < sSize then
    match al.rc k with
    | .enomem => allimWasteMemory al aDest (k + 1) (sSize / 2) chunks aCurrent
    | .success =>
        let sTemp := al.place k chunks.2.live
        (linkChunk chunks.1 sTemp (chunks.2.handOut sTemp)).bind fun chunks =>
          allimWasteMemory al aDest (k + 1) sSize chunks (aCurrent + chunkSize)
    | _ => some (chunks, aCurrent)
  else some (chunks, aCurrent)
termination_by ((aDest - aCurrent).toNat, sSize)
decreasing_by
  · rename_i h
    simp only [sizeofWasteChunk] at h
    exact Prod.Lex.right _ (Nat.div_lt_self (by omega) (by omega))
  · rename_i h
    exact Prod.Lex.left _ _ (by simp only [chunkSize]; omega)

/-- The loop of `allimFreeMemory`. -/
def freeLoop (aDest : Int) (chunks : Chunks) (aCurrent : Int) : Option (Chunks × Int) :=
  if aDest < aCurrent then
    match chunks.1 with
    | none => none
    | some head =>
        (unlinkChunk head chunks.2).bind fun chunks =>
          freeLoop aDest chunks (aCurrent - chunkSize)
  else some (chunks, aCurrent)
termination_by (aCurrent - aDest).toNat
decreasing_by
  simp only [chunkSize]
  omega

def allimFreeMemory (chunks : Chunks) (aCurrent aDest : Int) : Option (Chunks × Int) :=
  if chunks.1 = none then some (chunks, 0) else freeLoop aDest chunks aCurrent

/-- What `allimMemory` does with the chunks. -/
def changeChunks (al : Allocator) (chunks : Chunks) (sCurrent sDest : Int) :
    Option (Chunks × Int) :=
  if sCurrent < sDest then allimWasteMemory al sDest 0 chunkSize.toNat chunks sCurrent
  else allimFreeMemory chunks sCurrent sDest

/-- What the calls of one process work on. -/
structure Waste where
  mMemory : Int
  mDestMemory : Int
  chunks : Chunks

def Waste.start : Waste := ⟨0, 0, none, ⟨⟨id, id⟩, [], [], []⟩⟩

/-- `none` where memory is touched that is not there. -/
def Waste.allimMemory (s : Waste) (al : Allocator) : Option Waste :=
  if s.mDestMemory ≠ s.mMemory then
    (changeChunks al s.chunks s.mMemory s.mDestMemory).map fun out => ⟨out.2, out.2, out.1⟩
  else some s

inductive Call where
  | setMemoryWaste (aDest : Int)
  | memory (al : Allocator)

/-- A process that has touched memory that is not there does no more calls. -/
def step : Option Waste → Call → Option (Option Waste)
  | none, _ => none
  | some s, .setMemoryWaste aDest => some (some { s with mDestMemory := aDest })
  | some s, .memory al => some (s.allimMemory al)

def machine : Machine (Option Waste) Call := ⟨some .start, step⟩

/-! ## The ring of chunks -/

/-- The chunks `cells` are in the ring, and every other one that was handed out has been freed. -/
structure Sound (chunks : Chunks) (cells : List Ptr) : Prop where
  head : chunks.1 = cells.head?
  ring : Ring chunks.2.links cells
  live : chunks.2.live.Perm cells
  freed : chunks.2.allocated.Perm (chunks.2.freed ++ cells)

/-- The list is well formed: it holds the live chunks, and the bytes of each are counted. -/
structure Waste.Keeps (s : Waste) (cells : List Ptr) : Prop extends Sound s.chunks cells where
  counted : s.mMemory = chunkSize * cells.length

def WellFormed (s : Option Waste) : Prop := ∃ t cells, s = some t ∧ t.Keeps cells

theorem wellFormed_start : WellFormed (some .start) :=
  ⟨_, [], rfl, ⟨⟨rfl, .nil, .nil, .nil⟩, rfl⟩⟩

section Cells

variable {chunks : Chunks} {cells : List Ptr} {a : Ptr}

theorem Sound.mem_live (h : Sound chunks cells) : a ∈ chunks.2.live ↔ a ∈ cells :=
  h.live.mem_iff

theorem linkChunk_none (h : Heap) (a : Ptr) :
    linkChunk none a (h.handOut a) =
      some (some a, { h.handOut a with links := h.links.alone a }) := by
  simp [linkChunk, Heap.setNext, Heap.setPrev, Heap.handOut, Links.alone]

theorem linkChunk_some {h : Heap} {head : Ptr} (hhead : head ∈ h.live)
    (hlast : h.links.prev head ∈ h.live) (hne : head ≠ a) :
    linkChunk (some head) a (h.handOut a) =
      some (some head, { h.handOut a with links := h.links.pushLast head a }) := by
  simp [linkChunk, Heap.setNext, Heap.setPrev, Heap.mPrev, Heap.handOut, Links.pushLast, hhead,
    hlast, hne]

theorem unlinkChunk_last {h : Heap} {head : Ptr} (hhead : head ∈ h.live)
    (hlast : h.links.prev head = head) :
    unlinkChunk head h = some (none, { h with
      live := h.live.erase head
      freed := head :: h.freed }) := by
  simp [unlinkChunk, Heap.mPrev, Heap.acpMemFree, hhead, hlast]

theorem unlinkChunk_more {h : Heap} {head l : Ptr} (hhead : head ∈ h.live)
    (hl : l ∈ h.live) (hlast : h.links.prev head = l) (hbefore : h.links.prev l ∈ h.live)
    (hne : l ≠ head) :
    unlinkChunk head h = some (some head, { h with
      links := h.links.dropLast head
      live := h.live.erase l
      freed := l :: h.freed }) := by
  simp [unlinkChunk, Heap.setNext, Heap.setPrev, Heap.mPrev, Heap.acpMemFree, Links.dropLast,
    hhead, hl, hlast, hbefore, hne]

theorem Sound.link (h : Sound chunks cells) (ha : a ∉ chunks.2.live) :
    ∃ out, linkChunk chunks.1 a (chunks.2.handOut a) = some out ∧ Sound out (cells ++ [a]) := by
  have hcells : a ∉ cells := fun hmem => ha (h.mem_live.mpr hmem)
  have hperm : (a :: chunks.2.live).Perm (cells ++ [a]) :=
    (h.live.cons a).trans (List.perm_append_singleton a cells).symm
  have hfreed : (a :: chunks.2.allocated).Perm (chunks.2.freed ++ (cells ++ [a])) := by
    rw [← List.append_assoc]
    exact (h.freed.cons a).trans (List.perm_append_singleton a _).symm
  cases hhead : chunks.1 with
  | none =>
    obtain rfl : cells = [] := List.head?_eq_none_iff.mp (h.head.symm.trans hhead)
    exact ⟨_, linkChunk_none _ a, rfl, .alone _ a, hperm, hfreed⟩
  | some head =>
    have hc : head ∈ cells.head? := h.head.symm.trans hhead
    have hmem : head ∈ cells := List.mem_of_mem_head? hc
    have hne : cells ≠ [] := List.ne_nil_of_mem hmem
    have hl : cells.getLast hne ∈ cells.getLast? := List.getLast?_eq_some_getLast hne
    have hlast : chunks.2.links.prev head ∈ chunks.2.live := by
      rw [h.ring.prev_head hc hl]
      exact h.mem_live.mpr (List.getLast_mem hne)
    have hother : head ≠ a := fun heq => hcells (heq ▸ hmem)
    refine ⟨_, linkChunk_some (h.mem_live.mpr hmem) hlast hother, ?_, ?_, hperm, hfreed⟩
    · rw [List.head?_append_of_ne_nil _ hne]
      exact hc.symm
    · exact h.ring.pushLast hc hcells

theorem Sound.unlink {l : Ptr} (h : Sound chunks (cells ++ [l])) :
    ∃ head out, chunks.1 = some head ∧ unlinkChunk head chunks.2 = some out ∧
      Sound out cells := by
  have hl : l ∈ chunks.2.live := h.mem_live.mpr (List.mem_append_right _ List.mem_cons_self)
  have hperm : (chunks.2.live.erase l).Perm cells := by
    have herase := h.live.erase l
    have hnot : l ∉ cells := by
      intro hmem
      exact (List.nodup_append.mp h.ring.nodup).2.2 l hmem l List.mem_cons_self rfl
    rwa [List.erase_append_right _ hnot, List.erase_cons_head, List.append_nil] at herase
  have hfreed : chunks.2.allocated.Perm (l :: chunks.2.freed ++ cells) := by
    have hall := h.freed
    rw [← List.append_assoc] at hall
    exact hall.trans (List.perm_append_singleton l _)
  have hlast : l ∈ (cells ++ [l]).getLast? := List.getLast?_concat
  cases cells with
  | nil =>
    refine ⟨l, _, h.head, unlinkChunk_last hl (h.ring.prev_head rfl hlast), rfl, .nil, hperm, hfreed⟩
  | cons head rest =>
    have hhead : head ∈ chunks.2.live := h.mem_live.mpr List.mem_cons_self
    have hne : l ≠ head := by
      rintro rfl
      exact (List.nodup_cons.mp h.ring.nodup).1 (List.mem_append_right _ List.mem_cons_self)
    have hp : (head :: rest).getLast (List.cons_ne_nil _ _) ∈ (head :: rest).getLast? :=
      List.getLast?_eq_some_getLast _
    have hbefore : chunks.2.links.prev l ∈ chunks.2.live := by
      rw [((List.isChain_append.mp h.ring.chain).2.2 _ hp l rfl).2]
      exact h.mem_live.mpr (List.mem_append_left _ (List.getLast_mem _))
    refine ⟨head, _, h.head, unlinkChunk_more hhead hl (h.ring.prev_head rfl hlast) hbefore hne,
      rfl, ?_, hperm, hfreed⟩
    exact h.ring.dropLast rfl

end Cells

/-! ## The loops -/

/-- The ring behind a loop and the number of chunks that it comes to. -/
inductive Refines : Option (Chunks × Int) → Option (Nat × Int) → Prop
  | fault : Refines none none
  | done {chunks : Chunks} {cells : List Ptr} (aAfter : Int) (h : Sound chunks cells) :
      Refines (some (chunks, aAfter)) (some (cells.length, aAfter))

section Loops

variable {chunks : Chunks} {cells : List Ptr} {aDest aCurrent : Int}

theorem waste_refines (al : Allocator) {k sSize n : Nat} (h : Sound chunks cells)
    (hn : cells.length = n) :
    Refines (allimWasteMemory al aDest k sSize chunks aCurrent)
      (some (Shared.allimWasteMemory al.rc aDest k sSize n aCurrent)) := by
  fun_induction Shared.allimWasteMemory al.rc aDest k sSize n aCurrent
    generalizing chunks cells with
  | case1 k sSize n aCurrent hmore hrc ih =>
    rw [allimWasteMemory, if_pos hmore, hrc]
    exact ih h hn
  | case2 k sSize n aCurrent hmore hrc ih =>
    obtain ⟨out, hlink, hout⟩ := h.link (al.fresh k chunks.2.live)
    rw [allimWasteMemory, if_pos hmore, hrc]
    dsimp only
    rw [hlink, Option.bind_some]
    apply ih hout
    rw [List.length_append, hn]
    rfl
  | case3 k sSize n aCurrent hmore henomem hsuccess =>
    rw [allimWasteMemory, if_pos hmore]
    split
    · next hrc => exact absurd hrc henomem
    · next hrc => exact absurd hrc hsuccess
    · exact hn ▸ .done aCurrent h
  | case4 k sSize n aCurrent hmore =>
    rw [allimWasteMemory, if_neg hmore]
    exact hn ▸ .done aCurrent h

theorem free_refines (h : Sound chunks cells) :
    Refines (freeLoop aDest chunks aCurrent) (freeChunks aDest cells.length aCurrent) := by
  induction cells using List.reverseRecOn generalizing chunks aCurrent with
  | nil =>
    have hhead : chunks.1 = none := h.head
    rw [freeLoop, List.length_nil, freeChunks]
    by_cases hmore : aDest < aCurrent
    · rw [if_pos hmore, if_pos hmore, hhead]
      exact .fault
    · rw [if_neg hmore, if_neg hmore]
      exact .done aCurrent h
  | append_singleton cells l ih =>
    rw [freeLoop, List.length_append, List.length_singleton, freeChunks]
    by_cases hmore : aDest < aCurrent
    · obtain ⟨head, out, hhead, hunlink, hout⟩ := h.unlink
      rw [if_pos hmore, if_pos hmore, hhead]
      dsimp only
      rw [hunlink, Option.bind_some]
      exact ih hout
    · rw [if_neg hmore, if_neg hmore]
      have hdone := Refines.done aCurrent h
      rwa [List.length_append, List.length_singleton] at hdone

/-- The ring goes along with the number of chunks that the library model counts. -/
theorem change_refines {r : Replies} {al : Allocator} (hr : r.acpMemAlloc = al.rc)
    (h : Sound chunks cells) (sCurrent sDest : Int) :
    Refines (changeChunks al chunks sCurrent sDest)
      (changeMemory r cells.length sCurrent sDest) := by
  unfold changeChunks changeMemory
  split
  · rw [hr]
    exact waste_refines al h rfl
  · unfold allimFreeMemory Shared.allimFreeMemory
    cases cells with
    | nil =>
      rw [if_pos (show chunks.1 = none from h.head), if_pos List.length_nil]
      exact .done 0 h
    | cons head rest =>
      have hhead : chunks.1 ≠ none := by
        rw [h.head]
        exact Option.some_ne_none head
      rw [if_neg hhead, if_neg (show (head :: rest).length ≠ 0 from Nat.succ_ne_zero _)]
      exact free_refines h

end Loops

/-! ## The counter -/

theorem waste_counted (acpMemAlloc : Nat → AcpRc) (aDest : Int) {k sSize n : Nat} {aCurrent : Int}
    (h : aCurrent = chunkSize * n) :
    (Shared.allimWasteMemory acpMemAlloc aDest k sSize n aCurrent).2 =
      chunkSize * (Shared.allimWasteMemory acpMemAlloc aDest k sSize n aCurrent).1 := by
  fun_induction Shared.allimWasteMemory acpMemAlloc aDest k sSize n aCurrent with
  | case1 k sSize n aCurrent hmore hrc ih => exact ih h
  | case2 k sSize n aCurrent hmore hrc ih =>
    apply ih
    rw [h, Int.natCast_succ, Int.mul_add, Int.mul_one]
  | case3 k sSize n aCurrent hmore henomem hsuccess => exact h
  | case4 k sSize n aCurrent hmore => exact h

/-- From whole chunks on, the loop goes past the last chunk exactly for a target below zero. -/
theorem freeChunks_none_iff (aDest : Int) (n : Nat) :
    freeChunks aDest n (chunkSize * n) = none ↔ aDest < 0 := by
  induction n with
  | zero => simp [freeChunks]
  | succ n ih =>
    have hless : chunkSize * ((n + 1 : Nat) : Int) - chunkSize = chunkSize * n := by
      simp only [chunkSize]
      omega
    rw [freeChunks, hless]
    by_cases hmore : aDest < chunkSize * ((n + 1 : Nat) : Int)
    · rw [if_pos hmore, ih]
    · rw [if_neg hmore]
      simp only [chunkSize] at hmore
      exact iff_of_false (by simp) (by omega)

theorem free_counted {aDest : Int} {n : Nat} {out : Nat × Int}
    (h : freeChunks aDest n (chunkSize * n) = some out) : out.2 = chunkSize * out.1 := by
  induction n with
  | zero =>
    rw [freeChunks] at h
    split at h
    · cases h
    · cases h
      rfl
  | succ n ih =>
    have hless : chunkSize * ((n + 1 : Nat) : Int) - chunkSize = chunkSize * n := by
      simp only [chunkSize]
      omega
    rw [freeChunks, hless] at h
    split at h
    · exact ih h
    · cases h
      rfl

theorem changeMemory_none_iff (r : Replies) (n : Nat) (sDest : Int) :
    changeMemory r n (chunkSize * n) sDest = none ↔ sDest < 0 ∧ n ≠ 0 := by
  unfold changeMemory Shared.allimFreeMemory
  by_cases hlt : chunkSize * n < sDest
  · rw [if_pos hlt]
    simp only [chunkSize] at hlt
    exact iff_of_false (by simp) (by omega)
  · rw [if_neg hlt]
    by_cases hn : n = 0
    · rw [if_pos hn]
      exact iff_of_false (by simp) fun hboth => hboth.2 hn
    · rw [if_neg hn, freeChunks_none_iff, and_iff_left hn]

theorem changeMemory_counted {r : Replies} {n : Nat} {sDest : Int} {out : Nat × Int}
    (h : changeMemory r n (chunkSize * n) sDest = some out) : out.2 = chunkSize * out.1 := by
  unfold changeMemory Shared.allimFreeMemory at h
  split at h
  · cases h
    exact waste_counted _ _ rfl
  · split at h
    · cases h
      rfl
    · exact free_counted h

/-! ## The calls -/

/-- The allocator's answers for the library model. -/
def Allocator.replies (al : Allocator) : Replies where
  shmLog := file
  sKey := 1
  acpShmAttach := .success
  acpShmDetach := .success
  acpShmCreate := .success
  acpShmDestroy := .success
  created := file
  logs _ := file
  acpThrGetSelfID := ⟨1, Nat.one_ne_zero⟩
  acpMemAlloc := al.rc
  acpSockOpen _ := .success
where file : FileReplies := ⟨.success, .success, .success, .success, .success, .success,
  fun _ => .success, .success⟩

/-- The target is not below zero where chunks are held. -/
def Call.Admitted (s : Waste) : Call → Prop
  | .setMemoryWaste _ => True
  | .memory _ => 0 ≤ s.mDestMemory ∨ s.chunks.1 = none

/-- A call of `allimMemory` keeps the list well formed exactly if it is admitted. -/
theorem wellFormed_memory_iff {s : Waste} {cells : List Ptr} (h : s.Keeps cells)
    (al : Allocator) :
    WellFormed (s.allimMemory al) ↔ 0 ≤ s.mDestMemory ∨ s.chunks.1 = none := by
  have hnone : s.chunks.1 = none ↔ cells.length = 0 := by
    rw [h.head, List.head?_eq_none_iff, List.length_eq_zero_iff]
  unfold Waste.allimMemory
  by_cases hne : s.mDestMemory = s.mMemory
  · rw [if_neg (not_not_intro hne)]
    refine iff_of_true ⟨s, cells, rfl, h⟩ (Or.inl ?_)
    rw [hne, h.counted]
    simp only [chunkSize]
    omega
  · have hrefines := change_refines (r := al.replies) rfl h.toSound s.mMemory s.mDestMemory
    have hfault := changeMemory_none_iff al.replies cells.length s.mDestMemory
    have hcounted := @changeMemory_counted al.replies cells.length s.mDestMemory
    rw [if_pos hne, hnone]
    rw [h.counted] at hrefines ⊢
    -- Both sides are decided by whether the loop of the library model comes to an end.
    generalize changeChunks al s.chunks (chunkSize * cells.length) s.mDestMemory = out at hrefines ⊢
    generalize changeMemory al.replies cells.length (chunkSize * cells.length) s.mDestMemory = count
      at hrefines hfault hcounted
    cases hrefines with
    | fault =>
      have hbad := hfault.mp rfl
      apply iff_of_false
      · intro hwf
        cases hwf with
        | intro t hwf => cases hwf with
          | intro cells hwf => cases hwf.1
      · intro hgood
        cases hgood with
        | inl hpos => omega
        | inr hempty => exact hbad.2 hempty
    | done aAfter hsound =>
      apply iff_of_true
      · exact ⟨_, _, rfl, hsound, hcounted rfl⟩
      · by_contra hbad
        rw [not_or, Int.not_le] at hbad
        cases hfault.mpr hbad

theorem wellFormed_step_iff {s s' : Option Waste} {c : Call} (h : WellFormed s)
    (hs : step s c = some s') : WellFormed s' ↔ ∀ t ∈ s, c.Admitted t := by
  obtain ⟨t, cells, rfl, hkeeps⟩ := h
  cases c with
  | setMemoryWaste aDest =>
    cases hs
    apply iff_of_true
    · exact ⟨_, cells, rfl, hkeeps.toSound, hkeeps.counted⟩
    · intro _ _
      trivial
  | memory al =>
    cases hs
    rw [wellFormed_memory_iff hkeeps al]
    simp [Call.Admitted]

/-- Throughout the calls of a process the list is well formed, exactly if `allimMemory` never
meets a target below zero while chunks are held. -/
theorem wellFormed_throughout_iff (calls : List Call) :
    Machine.Throughout WellFormed machine.step machine.start calls ↔
      Machine.Along (fun s c => ∀ t ∈ s, c.Admitted t) machine.step machine.start calls :=
  Machine.throughout_iff_along (fun _ _ _ => wellFormed_step_iff) wellFormed_start calls

/-- A system in which every allocation succeeds. -/
def Allocator.plenty : Allocator where
  rc _ := .success
  place _ live := live.foldr max 0 + 1
  fresh _ live hmem :=
    Nat.not_succ_le_self _ (List.le_max_of_le' 0 hmem (Nat.le_refl (live.foldr max 0 + 1)))

/-- One chunk is held. -/
def Waste.one : Waste := ⟨chunkSize, chunkSize, some 1, ⟨.alone ⟨id, id⟩ 1, [1], [1], []⟩⟩

theorem memory_one : ({ Waste.start with mDestMemory := chunkSize } : Waste).allimMemory .plenty =
    some .one := by
  have hlink := linkChunk_none Waste.start.chunks.2 1
  have hwaste : allimWasteMemory .plenty chunkSize 0 chunkSize.toNat Waste.start.chunks 0 =
      some (Waste.one.chunks, chunkSize) := by
    rw [allimWasteMemory, if_pos (by decide)]
    show (linkChunk none 1 (Waste.start.chunks.2.handOut 1)).bind _ = _
    rw [hlink, Option.bind_some, allimWasteMemory, if_neg (by decide)]
    rfl
  rw [Waste.allimMemory, if_pos (by decide), changeChunks, if_pos (by decide)]
  exact congrArg (Option.map _) hwaste

/-- One chunk is held, and the target is set to one byte below zero. -/
theorem not_wellFormed_below_zero : ¬ Machine.Throughout WellFormed machine.step machine.start
    [.setMemoryWaste chunkSize, .memory .plenty, .setMemoryWaste (-1), .memory .plenty] := by
  intro h
  have hone : Machine.Throughout WellFormed machine.step (some .one)
      [.setMemoryWaste (-1), .memory .plenty] :=
    (h.2 _ rfl).2 _ (congrArg some memory_one)
  have hkeeps : ({ Waste.one with mDestMemory := -1 } : Waste).Keeps [1] :=
    ⟨⟨rfl, .alone _ 1, .refl _, .refl _⟩, rfl⟩
  have hend : WellFormed (({ Waste.one with mDestMemory := -1 } : Waste).allimMemory .plenty) :=
    (hone.2 _ rfl).2 _ rfl
  rw [wellFormed_memory_iff hkeeps] at hend
  exact absurd hend (by decide)

end Natc.Allim.WasteList
