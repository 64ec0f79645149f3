import Natc.Ploader.Binding

/-!
# Sequence declarations

The actions of `SEQ_DEF` on the memory they use: `user_object_name` builds a name with an owner in
`gTmpBuf`, and `InsertSeq` copies the two names it is handed into the members of an entry of
`gSeqArray`.
-/

namespace Natc.Ploader

open Natc.Lib

/-- What `user_object_name` points to. -/
inductive ObjectPtr where
  | token (str : Text)
  | gTmpBuf
  deriving DecidableEq, Repr

/-- The buffers that are copied into. -/
inductive SeqBuffer where
  | gTmpBuf
  | seqName (i : Nat)
  | seqCol (i : Nat)
  | seqVal (i : Nat)
  deriving DecidableEq, Repr

/-- The text of a copy and where it is copied to. -/
structure SeqCopy where
  dest : SeqBuffer
  text : Text
  deriving DecidableEq, Repr

/-- The buffer exists, and the text has room in it with its NUL. -/
def SeqCopy.Inside (c : SeqCopy) : Prop :=
  match c.dest with
  | .gTmpBuf => c.text.length < 256
  | .seqName i => i < maxSeqArrayCnt ∧ c.text.length < 50
  | .seqCol i => i < maxSeqArrayCnt ∧ c.text.length < 50
  | .seqVal i => i < maxSeqArrayCnt ∧ c.text.length < 8

/-- The globals of the sequences, and the copies made so far. -/
structure SeqState where
  gTmpBuf : Text
  gSeqIndex : Nat
  gSeqArray : Nat → SeqInfo
  copies : List SeqCopy

/-- The globals in front of a form. Only a load sets `gSeqIndex` to zero. -/
def SeqState.start (gTmpBuf : Text) (gSeqIndex : Nat) (gSeqArray : Nat → SeqInfo) : SeqState where
  gTmpBuf := gTmpBuf
  gSeqIndex := gSeqIndex
  gSeqArray := gSeqArray
  copies := []

namespace SeqState

variable (st : SeqState)

/-- The action of `user_object_name`. -/
def user_object_name (o : ObjectName) : ObjectPtr × SeqState :=
  match o.owner with
  | none => (.token o.name, st)
  | some _ => (.gTmpBuf, { st with
      gTmpBuf := o.text, copies := st.copies ++ [⟨.gTmpBuf, o.text⟩] })

def str : ObjectPtr → Text
  | .token str => str
  | .gTmpBuf => st.gTmpBuf

/-- `InsertSeq`. -/
def insertSeq (sName cName val : Text) : SeqState :=
  let i := if maxSeqArrayCnt < st.gSeqIndex then 0 else st.gSeqIndex
  { st with
    gSeqIndex := i + 1
    gSeqArray := Function.update st.gSeqArray i ⟨sName, cName, val⟩
    copies := st.copies ++ [⟨.seqName i, sName⟩, ⟨.seqCol i, cName⟩, ⟨.seqVal i, val⟩] }

/-- The actions of `SEQ_DEF`. -/
def seqDef (s : SeqDef) : SeqState :=
  let (sName, st) := st.user_object_name s.seq
  let (cName, st) := st.user_object_name s.col
  st.insertSeq (st.str sName) (st.str cName)
    (if s.currval then "currval".toList else "nextval".toList)

/-- The actions of `SEQ_DEF_LIST`. -/
def seqDefList (ss : List SeqDef) : SeqState :=
  ss.foldl seqDef st

/-- The entries in front of `gSeqIndex`. -/
def entries : List SeqInfo :=
  (List.range st.gSeqIndex).map st.gSeqArray

/-- No copy has left its buffer. -/
def Inside : Prop :=
  ∀ c ∈ st.copies, c.Inside

end SeqState

/-- The names and the value as they are written in the form. -/
def SeqDef.declared (s : SeqDef) : SeqInfo where
  seqName := s.seq.text
  seqCol := s.col.text
  seqVal := if s.currval then "currval".toList else "nextval".toList

/-- The declarations are recorded: every copy has stayed in its buffer, and the table lists what is
declared. -/
structure Recorded (st : SeqState) (ss : List SeqDef) : Prop where
  inside : (st.seqDefList ss).Inside
  entries : (st.seqDefList ss).entries = ss.map SeqDef.declared

/-! ## One declaration -/

section step

variable {st : SeqState} {s : SeqDef}

/-- The names with an owner, in the order in which they go through `gTmpBuf`. -/
def SeqDef.qualified (s : SeqDef) : List Text :=
  (if s.seq.owner.isSome then [s.seq.text] else []) ++
    (if s.col.owner.isSome then [s.col.text] else [])

/-- The actions of the names, with the texts that `InsertSeq` finds. -/
theorem seqDef_eq : st.seqDef s =
    ({ st with
      gTmpBuf := s.qualified.getLastD st.gTmpBuf
      copies := st.copies ++ s.qualified.map (SeqCopy.mk .gTmpBuf) } : SeqState).insertSeq
        s.info.seqName s.info.seqCol s.info.seqVal := by
  obtain ⟨⟨_ | owner, name⟩, ⟨_ | owner', name'⟩, currval⟩ := s
  · change _ = SeqState.insertSeq { st with copies := st.copies ++ [] } _ _ _
    rw [List.append_nil]
    rfl
  · rfl
  · rfl
  · rw [SeqDef.qualified, List.map_append, ← List.append_assoc]
    rfl

/-- What a declaration does below the limit. -/
theorem seqDef_spec (hi : st.gSeqIndex ≤ maxSeqArrayCnt) :
    (st.seqDef s).gSeqIndex = st.gSeqIndex + 1 ∧
      (st.seqDef s).gSeqArray = Function.update st.gSeqArray st.gSeqIndex s.info ∧
      (st.seqDef s).copies = st.copies ++ s.qualified.map (SeqCopy.mk .gTmpBuf) ++
        [⟨.seqName st.gSeqIndex, s.info.seqName⟩, ⟨.seqCol st.gSeqIndex, s.info.seqCol⟩,
          ⟨.seqVal st.gSeqIndex, s.info.seqVal⟩] := by
  rw [seqDef_eq, SeqState.insertSeq, if_neg hi.not_gt]
  exact ⟨rfl, rfl, rfl⟩

/-- Behind the limit the table is begun again. -/
theorem seqDef_again (hi : maxSeqArrayCnt < st.gSeqIndex) :
    st.seqDef s = ({ st with gSeqIndex := 0 } : SeqState).seqDef s := by
  rw [seqDef_eq, seqDef_eq, SeqState.insertSeq, SeqState.insertSeq, if_pos hi,
    if_neg (Nat.not_lt_zero _)]

theorem entries_seqDef (hi : st.gSeqIndex ≤ maxSeqArrayCnt) :
    (st.seqDef s).entries = st.entries ++ [s.info] := by
  obtain ⟨hindex, harray, -⟩ := seqDef_spec (s := s) hi
  simp only [SeqState.entries, hindex, harray, List.range_succ, List.map_append, List.map_singleton,
    Function.update_self]
  congr 1
  apply List.map_congr_left
  intro k hk
  exact Function.update_of_ne (List.mem_range.mp hk).ne _ _

/-- The texts have room in the members of an entry. -/
structure SeqDef.Fits (s : SeqDef) : Prop where
  seqName : s.info.seqName.length < 50
  seqCol : s.info.seqCol.length < 50
  gTmpBuf : s.seq.owner.isSome → s.seq.text.length < 256

theorem seqVal_length (s : SeqDef) : s.info.seqVal.length < 8 := by
  rw [SeqDef.info, apply_ite List.length]
  split
  · decide
  · decide

theorem mem_qualified {str : Text} : str ∈ s.qualified ↔
    s.seq.owner.isSome ∧ str = s.seq.text ∨ s.col.owner.isSome ∧ str = s.col.text := by
  simp only [SeqDef.qualified, List.mem_append, List.mem_ite_nil_right, List.mem_singleton]

theorem inside_seqDef (hi : st.gSeqIndex ≤ maxSeqArrayCnt) :
    (st.seqDef s).Inside ↔ st.Inside ∧ st.gSeqIndex < maxSeqArrayCnt ∧ s.Fits := by
  obtain ⟨-, -, hcopies⟩ := seqDef_spec (s := s) hi
  rw [SeqState.Inside, hcopies, List.append_assoc, List.forall_mem_append, List.forall_mem_append,
    List.forall_mem_map]
  refine and_congr_right fun _ => ?_
  constructor
  · rintro ⟨htmp, hentry⟩
    have hname := hentry ⟨.seqName st.gSeqIndex, s.info.seqName⟩ (by simp)
    have hcol := hentry ⟨.seqCol st.gSeqIndex, s.info.seqCol⟩ (by simp)
    exact ⟨hname.1, hname.2, hcol.2, fun howner => htmp _ (mem_qualified.mpr (Or.inl ⟨howner, rfl⟩))⟩
  · rintro ⟨hlt, hfits⟩
    refine ⟨fun str hstr => ?_, fun c hc => ?_⟩
    · rcases mem_qualified.mp hstr with ⟨howner, rfl⟩ | ⟨-, rfl⟩
      · exact hfits.gTmpBuf howner
      · have hcol : s.col.text.length < 50 := hfits.seqCol
        exact hcol.trans (by omega)
    · simp only [List.mem_cons, List.not_mem_nil, or_false] at hc
      rcases hc with rfl | rfl | rfl
      · exact ⟨hlt, hfits.seqName⟩
      · exact ⟨hlt, hfits.seqCol⟩
      · exact ⟨hlt, seqVal_length s⟩

end step

/-! ## All of them -/

section run

variable {st : SeqState} {ss : List SeqDef}

/-- The entries and the copies behind declarations that the table has room for. -/
theorem entries_seqDefList (h : st.gSeqIndex + ss.length ≤ maxSeqArrayCnt) :
    (st.seqDefList ss).entries = st.entries ++ ss.map SeqDef.info := by
  induction ss generalizing st with
  | nil => exact (List.append_nil _).symm
  | cons s ss ih =>
    rw [List.length_cons] at h
    have hindex := (@seqDef_spec st s (by omega)).1
    have hafter := @ih (st.seqDef s) (by omega)
    rw [entries_seqDef (by omega), List.append_assoc, List.singleton_append] at hafter
    exact hafter

/-- A copy that has been made stays made. -/
theorem inside_of_seqDefList (h : (st.seqDefList ss).Inside) : st.Inside := by
  induction ss generalizing st with
  | nil => exact h
  | cons s ss ih =>
    have hstep : (st.seqDef s).Inside := ih h
    rw [seqDef_eq, SeqState.Inside, SeqState.insertSeq, List.append_assoc] at hstep
    exact fun c hc => hstep c (List.mem_append_left _ hc)

/-- Every copy stays in its buffer exactly if no declaration finds the table full and all texts have
room. -/
theorem inside_seqDefList (hi : st.gSeqIndex ≤ maxSeqArrayCnt) :
    (st.seqDefList ss).Inside ↔ st.Inside ∧ st.gSeqIndex + ss.length ≤ maxSeqArrayCnt ∧
      ∀ s ∈ ss, s.Fits := by
  induction ss generalizing st with
  | nil => simp [SeqState.seqDefList, hi]
  | cons s ss ih =>
    have hindex := (seqDef_spec (s := s) hi).1
    have hlist : st.seqDefList (s :: ss) = (st.seqDef s).seqDefList ss := rfl
    rw [hlist, List.forall_mem_cons, List.length_cons]
    rcases Nat.lt_or_ge st.gSeqIndex maxSeqArrayCnt with hlt | hfull
    · rw [ih (by omega), inside_seqDef hi, hindex]
      constructor
      · rintro ⟨⟨hst, -, hs⟩, hroom, hss⟩
        exact ⟨hst, by omega, hs, hss⟩
      · rintro ⟨hst, hroom, hs, hss⟩
        exact ⟨⟨hst, hlt, hs⟩, by omega, hss⟩
    · refine iff_of_false (fun hinside => ?_) fun h => by omega
      have hstep := ((inside_seqDef hi).mp (inside_of_seqDefList hinside)).2.1
      omega

end run

/-- Two names with an owner in one declaration are the same text. -/
def SeqDef.OneQualified (s : SeqDef) : Prop :=
  s.seq.owner.isSome → s.col.owner.isSome → s.seq.text = s.col.text

theorem info_eq_declared {s : SeqDef} : s.info = s.declared ↔ s.OneQualified := by
  rw [SeqDef.info, SeqDef.declared, SeqInfo.mk.injEq, and_iff_left ⟨rfl, rfl⟩,
    SeqDef.OneQualified]
  by_cases hboth : s.seq.owner.isSome ∧ s.col.owner.isSome
  · rw [if_pos (by simp [hboth])]
    exact ⟨fun h _ _ => h.symm, fun h => (h hboth.1 hboth.2).symm⟩
  · rw [if_neg (by simpa using hboth)]
    exact iff_of_true rfl fun hseq hcol => absurd ⟨hseq, hcol⟩ hboth

theorem fits_iff {s : SeqDef} (h : s.OneQualified) :
    s.Fits ↔ s.seq.text.length < 50 ∧ s.col.text.length < 50 := by
  have hname : s.info.seqName = s.seq.text := congrArg SeqInfo.seqName (info_eq_declared.mpr h)
  constructor
  · rintro ⟨hseq, hcol, -⟩
    exact ⟨hname ▸ hseq, hcol⟩
  · rintro ⟨hseq, hcol⟩
    exact ⟨hname.symm ▸ hseq, hcol, fun _ => hseq.trans (by omega)⟩

theorem length_entries (st : SeqState) : st.entries.length = st.gSeqIndex := by
  rw [SeqState.entries, List.length_map, List.length_range]

theorem recorded_empty (gTmpBuf : Text) (gSeqArray : Nat → SeqInfo) (ss : List SeqDef) :
    Recorded (.start gTmpBuf 0 gSeqArray) ss ↔ ss.length ≤ maxSeqArrayCnt ∧
      ∀ s ∈ ss, s.OneQualified ∧ s.seq.text.length < 50 ∧ s.col.text.length < 50 := by
  have hinside := @inside_seqDefList (.start gTmpBuf 0 gSeqArray) ss (Nat.zero_le _)
  have hstart : (SeqState.start gTmpBuf 0 gSeqArray).Inside := fun c hc => by cases hc
  rw [and_iff_right hstart] at hinside
  change _ ↔ 0 + ss.length ≤ maxSeqArrayCnt ∧ _ at hinside
  rw [Nat.zero_add] at hinside
  have hentries := fun hle : ss.length ≤ maxSeqArrayCnt =>
    @entries_seqDefList (.start gTmpBuf 0 gSeqArray) ss (by change 0 + ss.length ≤ _; omega)
  constructor
  · rintro ⟨hin, hlist⟩
    obtain ⟨hle, hfits⟩ := hinside.mp hin
    have hsame : ss.map SeqDef.info = ss.map SeqDef.declared := (hentries hle).symm.trans hlist
    refine ⟨hle, fun s hs => ?_⟩
    have hone := info_eq_declared.mp (List.map_inj_left.mp hsame s hs)
    exact ⟨hone, (fits_iff hone).mp (hfits s hs)⟩
  · rintro ⟨hle, hall⟩
    refine ⟨hinside.mpr ⟨hle, fun s hs => ?_⟩, (hentries hle).trans ?_⟩
    · obtain ⟨hone, hlength⟩ := hall s hs
      exact (fits_iff hone).mpr hlength
    · exact List.map_congr_left fun s hs => info_eq_declared.mpr (hall s hs).1

/-- The sequences of a form are recorded exactly if the table begins empty or over the limit, there
are at most eight of them, no two different names with an owner stand in one declaration, and every
name is shorter than its member. -/
theorem seqs_recorded_iff (gTmpBuf : Text) (gSeqIndex : Nat) (gSeqArray : Nat → SeqInfo)
    (ss : List SeqDef) :
    Recorded (.start gTmpBuf gSeqIndex gSeqArray) ss ↔
      (gSeqIndex = 0 ∨ maxSeqArrayCnt < gSeqIndex ∧ ss ≠ []) ∧ ss.length ≤ maxSeqArrayCnt ∧
        ∀ s ∈ ss, s.OneQualified ∧ s.seq.text.length < 50 ∧ s.col.text.length < 50 := by
  rcases Nat.eq_zero_or_pos gSeqIndex with rfl | hpos
  · rw [recorded_empty, and_iff_right (Or.inl rfl)]
  rcases Nat.lt_or_ge maxSeqArrayCnt gSeqIndex with hover | hle
  · cases ss with
    | nil =>
      refine iff_of_false (fun h => ?_) (by simp [hpos.ne'])
      have hlength := congrArg List.length h.entries
      rw [length_entries] at hlength
      exact absurd hlength hpos.ne'
    | cons s ss =>
      have hagain : (SeqState.start gTmpBuf gSeqIndex gSeqArray).seqDefList (s :: ss) =
          (SeqState.start gTmpBuf 0 gSeqArray).seqDefList (s :: ss) :=
        congrArg (fun st => st.seqDefList ss)
          (@seqDef_again (.start gTmpBuf gSeqIndex gSeqArray) s hover)
      have hsame : Recorded (.start gTmpBuf gSeqIndex gSeqArray) (s :: ss) ↔
          Recorded (.start gTmpBuf 0 gSeqArray) (s :: ss) :=
        ⟨fun h => ⟨hagain ▸ h.inside, hagain ▸ h.entries⟩,
          fun h => ⟨hagain ▸ h.inside, hagain ▸ h.entries⟩⟩
      rw [hsame, recorded_empty, and_iff_right (Or.inr ⟨hover, List.cons_ne_nil s ss⟩)]
  · refine iff_of_false (fun h => ?_) fun h => by omega
    have hroom := ((@inside_seqDefList (.start gTmpBuf gSeqIndex gSeqArray) ss hle).mp
      h.inside).2.1
    have hlength := congrArg List.length h.entries
    rw [entries_seqDefList hroom, List.length_append, length_entries, List.length_map,
      List.length_map] at hlength
    have hindex : (SeqState.start gTmpBuf gSeqIndex gSeqArray).gSeqIndex = gSeqIndex := rfl
    omega

/-- `SEQUENCE s c`. -/
def plainSeq : SeqDef := ⟨⟨none, ['s']⟩, ⟨none, ['c']⟩, false⟩

/-- `SEQUENCE u.s t.c`. -/
def qualifiedSeq : SeqDef := ⟨⟨some ['u'], ['s']⟩, ⟨some ['t'], ['c']⟩, false⟩

/-- The ninth declaration is written behind the table, and of two names with an owner the first is
lost. -/
theorem not_recorded : ¬Recorded (.start [] 0 fun _ => ⟨[], [], []⟩) (List.replicate 9 plainSeq) ∧
    ¬Recorded (.start [] 0 fun _ => ⟨[], [], []⟩) [qualifiedSeq] := by
  constructor
  · rw [recorded_empty, List.length_replicate]
    exact fun h => absurd h.1 (by decide)
  · rw [recorded_empty]
    exact fun h => absurd ((h.2 _ List.mem_cons_self).1 rfl rfl) (by decide)

end Natc.Ploader
