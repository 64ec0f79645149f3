import Mathlib.Data.List.Forall2
import Mathlib.Data.List.Nodup
import Natc.Ploader.Insert

/-!
# Names, values and parameters

The three selections of columns behind an INSERT are compared column by column, and the globals
they read are traced back to the timestamp columns of the form.
-/

namespace Natc.Ploader

open Natc.Lib

section Selection

variable {α β : Type}

/-- Two selections of which one contains the other have one length only if they are the same. -/
theorem countP_eq_iff {p q : α → Bool} {l : List α} (h : ∀ a ∈ l, q a → p a) :
    l.countP p = l.countP q ↔ ∀ a ∈ l, p a → q a := by
  induction l with
  | nil => simp
  | cons a l ih =>
    have htail := ih fun b hb => h b (List.mem_cons_of_mem a hb)
    have hle : l.countP q ≤ l.countP p :=
      List.countP_mono_left fun b hb => h b (List.mem_cons_of_mem a hb)
    have hhead := h a List.mem_cons_self
    rw [List.forall_mem_cons, ← htail, List.countP_cons, List.countP_cons]
    cases hp : p a <;> cases hq : q a <;> simp_all
    omega

/-- Selections from entries with distinct keys have the same keys only if they are the same. -/
theorem map_filter_eq_iff {f : α → β} {p q : α → Bool} {l : List α} (hl : (l.map f).Nodup) :
    (l.filter p).map f = (l.filter q).map f ↔ ∀ a ∈ l, p a = q a := by
  constructor
  · intro h a ha
    have hinj := List.inj_on_of_nodup_map hl
    have hmem : ∀ r : α → Bool, f a ∈ (l.filter r).map f ↔ r a = true := by
      intro r
      rw [List.mem_map]
      constructor
      · rintro ⟨b, hb, hfb⟩
        rw [List.mem_filter] at hb
        rw [← hinj hb.1 ha hfb]
        exact hb.2
      · intro hr
        exact ⟨a, List.mem_filter.mpr ⟨ha, hr⟩, rfl⟩
    rw [Bool.eq_iff_iff, ← hmem p, ← hmem q, h]
  · intro h
    rw [List.filter_congr h]

end Selection

/-! ## Column by column -/

namespace LoadState

variable (l : LoadState)

/-- The second loop writes a value. -/
def valued (c : Column) : Bool :=
  if c.m_AttrType = .timestamp then
    l.globals.gTimestampType ≠ .default &&
      (l.globals.gTimestampType ≠ .dat || !c.mSkipFlag)
  else !c.mSkipFlag

/-- The second loop writes a parameter. -/
def marked (c : Column) : Bool :=
  if c.m_AttrType = .timestamp then l.globals.gTimestampType = .dat && !c.mSkipFlag
  else !c.mSkipFlag && (seqEqualChk l.globals.gSeqArray c.m_AttrName).isNone

theorem value_isSome (env : LoadEnv) (c : Column) (i : Nat) :
    (l.value env c i).isSome = l.valued c := by
  unfold value valued timestampValue
  by_cases ht : c.m_AttrType = .timestamp
  · rw [if_pos ht, if_pos ht]
    cases l.globals.gTimestampType <;> cases c.mSkipFlag <;> rfl
  · rw [if_neg ht, if_neg ht]
    cases c.mSkipFlag with
    | true => rfl
    | false =>
      cases seqEqualChk l.globals.gSeqArray c.m_AttrName with
      | some index => rfl
      | none =>
        simp only [Bool.false_eq_true, if_false]
        split
        · split
          · rfl
          · split <;> rfl
        · rfl

theorem value_parameter (env : LoadEnv) (c : Column) (i : Nat) :
    (l.value env c i).bind InsertValue.parameter? = if l.marked c then some i else none := by
  unfold value marked timestampValue
  by_cases ht : c.m_AttrType = .timestamp
  · rw [if_pos ht, if_pos ht]
    cases l.globals.gTimestampType <;> cases c.mSkipFlag <;> rfl
  · rw [if_neg ht, if_neg ht]
    cases c.mSkipFlag with
    | true => rfl
    | false =>
      cases seqEqualChk l.globals.gSeqArray c.m_AttrName with
      | some index => rfl
      | none =>
        simp only [Bool.false_eq_true, if_false]
        split
        · split
          · rfl
          · split <;> rfl
        · rfl

/-- A column for which the three loops agree. -/
def AgreesOn (c : Column) : Prop :=
  c.m_AttrType = .timestamp →
    (l.globals.gTimestampType = .dat → c.mSkipFlag = false) ∧
    (c.mSkipFlag = false →
      (l.globals.gTimestampType = .dat ↔
        (seqEqualChk l.globals.gSeqArray c.m_AttrName).isSome = false ∧
          l.globals.gAddFlag = false))

theorem valued_named (c : Column) (h : l.valued c) : l.named c := by
  revert h
  unfold valued named
  by_cases ht : c.m_AttrType = .timestamp <;> cases l.globals.gTimestampType <;>
    cases c.mSkipFlag <;> simp [ht]

theorem agreesOn_iff (c : Column) :
    l.AgreesOn c ↔ (l.named c → l.valued c) ∧ l.marked c = l.binds c := by
  unfold AgreesOn named valued marked binds
  by_cases ht : c.m_AttrType = .timestamp
  · cases hm : l.globals.gTimestampType <;> cases hs : c.mSkipFlag <;>
      cases hq : seqEqualChk l.globals.gSeqArray c.m_AttrName <;>
      cases ha : l.globals.gAddFlag <;> simp [ht]
  · cases hs : c.mSkipFlag <;> cases hq : seqEqualChk l.globals.gSeqArray c.m_AttrName <;>
      simp [ht]

/-- The statement agrees with the binding if and only if the loops agree on every column. -/
theorem agreement_iff {env : LoadEnv} {s : InsertStatement}
    (hs : l.makePrepareSQLStatement env = some s) :
    s.Agrees l.bindParameter ↔ ∀ c ∈ l.info.columns, l.AgreesOn c := by
  unfold makePrepareSQLStatement at hs
  split at hs
  · exact absurd hs (by simp)
  · rw [Option.some.injEq] at hs
    subst hs
    have hnames : ((l.info.columns.filter fun c => l.named c).map Column.m_AttrName).length =
        l.info.columns.countP l.named := by
      rw [List.length_map, List.countP_eq_length_filter]
    have hvalues : (l.info.columns.zipIdx.filterMap fun ci => l.value env ci.1 ci.2).length =
        l.info.columns.countP l.valued := by
      rw [List.length_filterMap_eq_countP]
      conv_rhs => rw [← List.zipIdx_map_fst 0 l.info.columns, List.countP_map]
      congr 1
      funext ci
      exact l.value_isSome env ci.1 ci.2
    have hparams : (l.info.columns.zipIdx.filterMap fun ci => l.value env ci.1 ci.2).filterMap
        InsertValue.parameter? =
          (l.info.columns.zipIdx.filter fun ci => l.marked ci.1).map Prod.snd := by
      rw [List.filterMap_filterMap]
      conv_rhs => rw [← List.filterMap_eq_filter, List.map_filterMap]
      congr 1
      funext ci
      rw [l.value_parameter env ci.1 ci.2]
      cases hm : l.marked ci.1 <;> simp [Option.guard, hm]
    have hkeys : (l.info.columns.zipIdx.map Prod.snd).Nodup := by
      rw [List.zipIdx_map_snd]
      exact List.nodup_range'
    unfold InsertStatement.Agrees InsertStatement.parameters bindParameter
    rw [hnames, hvalues, hparams, countP_eq_iff fun c _ => l.valued_named c,
      map_filter_eq_iff hkeys]
    have hzip : (∀ ci ∈ l.info.columns.zipIdx, l.marked ci.1 = l.binds ci.1) ↔
        ∀ c ∈ l.info.columns, l.marked c = l.binds c := by
      conv_rhs => rw [← List.zipIdx_map_fst 0 l.info.columns]
      rw [List.forall_mem_map]
    rw [hzip]
    constructor
    · rintro ⟨hnv, hmb⟩ c hc
      exact (l.agreesOn_iff c).mpr ⟨hnv c hc, hmb c hc⟩
    · intro h
      exact ⟨fun c hc => ((l.agreesOn_iff c).mp (h c hc)).1,
        fun c hc => ((l.agreesOn_iff c).mp (h c hc)).2⟩

end LoadState

/-! ## From the form to the columns -/

theorem seqActions_eq (ss : List SeqDef) (seqs : List SeqInfo) (h : seqs.length ≤ maxSeqArrayCnt) :
    seqActions ss seqs =
      if seqs.length + ss.length ≤ maxSeqArrayCnt then some (seqs ++ ss.map SeqDef.info)
      else none := by
  induction ss generalizing seqs with
  | nil => simp [seqActions, h]
  | cons s ss ih =>
    show (insertSeq seqs s.info).bind (seqActions ss) = _
    unfold insertSeq
    rw [if_neg (by omega)]
    by_cases hfull : seqs.length = maxSeqArrayCnt
    · rw [if_pos hfull, if_neg (by rw [List.length_cons]; omega)]
      rfl
    · have hroom : (seqs ++ [s.info]).length ≤ maxSeqArrayCnt := by
        rw [List.length_append, List.length_singleton]
        omega
      have hlength : (seqs ++ [s.info]).length + ss.length = seqs.length + (s :: ss).length := by
        simp only [List.length_append, List.length_cons, List.length_nil]
        omega
      rw [if_neg hfull, Option.bind_some, ih _ hroom, hlength, List.append_assoc,
        List.singleton_append, List.map_cons]

/-- The table info has the column of the form. -/
structure Describes (d : AttributeDef) (c : Column) : Prop where
  name : c.m_AttrName = d.column_name
  timestamp : c.m_AttrType = .timestamp ↔ d.stamp?.isSome
  skip : ∀ st, d.stamp? = some st → c.mSkipFlag = st.skip

/-- The mode and the add flag. -/
def FormGlobals.mode (g : FormGlobals) : TimestampType × Bool :=
  (g.gTimestampType, g.gAddFlag)

def Stamp.globals (st : Stamp) : TimestampType × Bool :=
  (st.mode, st.add)

/-- What an alternative does: its node becomes the column, and a timestamp sets the globals. -/
structure Acts (d : AttributeDef) (g : FormGlobals) (node : AttrNode) (g' : FormGlobals) : Prop where
  column : ∃ c, node.column = some c ∧ Describes d c
  seqs : g'.gSeqArray = g.gSeqArray
  mode : g'.mode = (d.stamp?.map Stamp.globals).getD g.mode

/-- No type of the list is a timestamp, and `GetTableInfo` knows all of them. -/
def untimed (types : List TypeWord) : Bool :=
  types.all fun t => (attrTypeOf t.attrType).any fun a => a ≠ .timestamp

private theorem acts_typed {types : List TypeWord} (htypes : untimed types = true)
    {d : AttributeDef} {g g' : FormGlobals} {node : AttrNode} {n : Option Nat} {flags : SkipNoexp}
    (hstamp : d.stamp? = none)
    (h : (typedNode types d.column_name d.type n flags).map (·, g) = some (node, g')) :
    Acts d g node g' := by
  obtain ⟨node', hnode, heq⟩ := Option.map_eq_some_iff.mp h
  obtain ⟨rfl, rfl⟩ := Prod.mk.inj heq
  obtain ⟨t, ht, rfl⟩ := Option.map_eq_some_iff.mp hnode
  have hmem : t ∈ types := List.mem_of_find?_eq_some ht
  have hknown := List.all_eq_true.mp htypes t hmem
  obtain ⟨a, ha, hne⟩ := (Option.any_eq_true _ _).mp hknown
  refine ⟨⟨_, congrArg (Option.map _) ha, rfl, ?_, ?_⟩, rfl, ?_⟩
  · rw [hstamp]
    simpa using hne
  · intro st hst
    rw [hstamp] at hst
    exact absurd hst (by simp)
  · rw [hstamp]
    rfl

private theorem acts_date {d : AttributeDef} (g : FormGlobals) (format : Option Text) (skip : Bool)
    (hstamp : d.stamp? = none) :
    Acts d g (dateNode d.column_name format skip) { g with gDateForm := [] } := by
  refine ⟨⟨_, rfl, rfl, ?_, ?_⟩, rfl, ?_⟩
  · rw [hstamp]
    show AttrType.date = AttrType.timestamp ↔ _
    decide
  · intro st hst
    rw [hstamp] at hst
    exact absurd hst (by simp)
  · rw [hstamp]
    rfl

private theorem acts_timestamp {d : AttributeDef} {g g' : FormGlobals} {st : Stamp}
    (hstamp : d.stamp? = some st) (hseqs : g'.gSeqArray = g.gSeqArray)
    (hmode : g'.mode = st.globals) : Acts d g (timestampNode d.column_name st.skip) g' := by
  refine ⟨⟨_, rfl, rfl, ?_, ?_⟩, hseqs, ?_⟩
  · rw [hstamp]
    show AttrType.timestamp = AttrType.timestamp ↔ true = true
    decide
  · intro st' hst
    rw [hstamp, Option.some.injEq] at hst
    rw [← hst]
    rfl
  · rw [hstamp]
    exact hmode

private theorem not_timestamp_of_date {type : Text} (h : sameCaseless type dateWord = true) :
    sameCaseless type timestampWord = false := by
  unfold sameCaseless at h ⊢
  rw [of_decide_eq_true h]
  rfl

private theorem stamp_none_of_not {d : AttributeDef}
    (h : sameCaseless d.type timestampWord = false) : d.stamp? = none := by
  unfold AttributeDef.stamp?
  rw [h]
  rfl

/-- The action of an alternative, whichever it is. -/
theorem attributeAction_acts {d : AttributeDef} {g g' : FormGlobals} {node : AttrNode}
    (h : attributeAction d g = some (node, g')) : Acts d g node g' := by
  obtain ⟨name, type, tail⟩ := d
  cases tail with
  | sized n flags =>
    have hstamp : (⟨name, type, .sized n flags⟩ : AttributeDef).stamp? = none := ite_self _
    exact acts_typed (by decide) hstamp h
  | dated format skip =>
    have hstamp : (⟨name, type, .dated format skip⟩ : AttributeDef).stamp? = none := ite_self _
    unfold attributeAction at h
    dsimp only at h
    split at h
    · obtain ⟨rfl, rfl⟩ := Prod.mk.inj (Option.some.inj h)
      exact acts_date g (some format) skip hstamp
    · exact absurd h (by simp)
  | plain flags =>
    unfold attributeAction at h
    dsimp only at h
    split at h
    · obtain ⟨rfl, rfl⟩ := Prod.mk.inj (Option.some.inj h)
      exact acts_date g none flags.skip (stamp_none_of_not (not_timestamp_of_date ‹_›))
    · split at h
      · obtain ⟨rfl, rfl⟩ := Prod.mk.inj (Option.some.inj h)
        have hstamp : (⟨name, type, .plain flags⟩ : AttributeDef).stamp? =
            some ⟨.dat, false, flags.skip⟩ := if_pos ‹_›
        exact acts_timestamp hstamp rfl rfl
      · exact acts_typed (by decide) (stamp_none_of_not (Bool.eq_false_iff.mpr ‹_›)) h
  | skipStamp v =>
    unfold attributeAction at h
    dsimp only at h
    split at h
    · obtain ⟨rfl, rfl⟩ := Prod.mk.inj (Option.some.inj h)
      have hstamp : (⟨name, type, .skipStamp v⟩ : AttributeDef).stamp? =
          some ⟨v.timestampType, false, true⟩ := if_pos ‹_›
      exact acts_timestamp hstamp rfl rfl
    · exact absurd h (by simp)
  | addStamp v =>
    unfold attributeAction at h
    dsimp only at h
    split at h
    · obtain ⟨rfl, rfl⟩ := Prod.mk.inj (Option.some.inj h)
      have hstamp : (⟨name, type, .addStamp v⟩ : AttributeDef).stamp? =
          some ⟨v.timestampType, true, false⟩ := if_pos ‹_›
      exact acts_timestamp hstamp rfl rfl
    · exact absurd h (by simp)
  | zeroScaled n flags =>
    have hstamp : (⟨name, type, .zeroScaled n flags⟩ : AttributeDef).stamp? = none := ite_self _
    exact acts_typed (by decide) hstamp h
  | scaled n m flags =>
    have hstamp : (⟨name, type, .scaled n m flags⟩ : AttributeDef).stamp? = none := ite_self _
    exact acts_typed (by decide) hstamp h

private theorem typedNode_isSome (types : List TypeWord) (name type : Text) (n : Option Nat)
    (flags : SkipNoexp) :
    (typedNode types name type n flags).isSome = types.any fun t => sameCaseless type t.word := by
  unfold typedNode
  rw [Option.isSome_map, Bool.eq_iff_iff, List.find?_isSome, List.any_eq_true]

/-- The parser goes on if and only if the alternative has the type. -/
theorem attributeAction_isSome (d : AttributeDef) (g : FormGlobals) :
    (attributeAction d g).isSome = d.supported := by
  obtain ⟨name, type, tail⟩ := d
  cases tail with
  | sized n flags => exact Option.isSome_map.trans (typedNode_isSome _ _ _ _ _)
  | zeroScaled n flags => exact Option.isSome_map.trans (typedNode_isSome _ _ _ _ _)
  | scaled n m flags => exact Option.isSome_map.trans (typedNode_isSome _ _ _ _ _)
  | dated format skip =>
    unfold attributeAction AttributeDef.supported
    cases sameCaseless type dateWord <;> rfl
  | skipStamp v =>
    unfold attributeAction AttributeDef.supported
    cases sameCaseless type timestampWord <;> rfl
  | addStamp v =>
    unfold attributeAction AttributeDef.supported
    cases sameCaseless type timestampWord <;> rfl
  | plain flags =>
    unfold attributeAction AttributeDef.supported
    cases hdate : sameCaseless type dateWord with
    | true => rfl
    | false =>
      cases htime : sameCaseless type timestampWord with
      | true => rfl
      | false => exact Option.isSome_map.trans (typedNode_isSome _ _ _ _ _)

/-- What the actions of a list of columns do. -/
structure ActsAll (ds : List AttributeDef) (g : FormGlobals) (nodes : List AttrNode)
    (g' : FormGlobals) : Prop where
  columns : ∃ cs, columnsOf nodes = some cs ∧ List.Forall₂ Describes ds cs
  length : nodes.length = ds.length
  seqs : g'.gSeqArray = g.gSeqArray
  mode : g'.mode = (((ds.filterMap AttributeDef.stamp?).getLast?).map Stamp.globals).getD g.mode

theorem attributeActions_acts {ds : List AttributeDef} {g g' : FormGlobals} {nodes : List AttrNode}
    (h : attributeActions ds g = some (nodes, g')) : ActsAll ds g nodes g' := by
  induction ds generalizing g nodes with
  | nil =>
    obtain ⟨rfl, rfl⟩ := Prod.mk.inj (Option.some.inj h)
    exact ⟨⟨[], rfl, .nil⟩, rfl, rfl, rfl⟩
  | cons d ds ih =>
    unfold attributeActions at h
    cases hd : attributeAction d g with
    | none => simp [hd] at h
    | some a =>
      obtain ⟨node, g₁⟩ := a
      cases hds : attributeActions ds g₁ with
      | none => simp [hd, hds] at h
      | some b =>
        obtain ⟨nodes₁, g₂⟩ := b
        simp only [hd, hds, Option.some.injEq, Prod.mk.injEq] at h
        obtain ⟨rfl, rfl⟩ := h
        have hhead := attributeAction_acts hd
        have htail := ih hds
        obtain ⟨c, hc, hdc⟩ := hhead.column
        obtain ⟨cs, hcs, hdcs⟩ := htail.columns
        refine ⟨⟨c :: cs, ?_, .cons hdc hdcs⟩, ?_, htail.seqs.trans hhead.seqs, ?_⟩
        · simp only [columnsOf, hc, hcs]
        · rw [List.length_cons, List.length_cons, htail.length]
        · rw [htail.mode, hhead.mode]
          cases hst : d.stamp? with
          | none => rw [List.filterMap_cons_none hst]; rfl
          | some st =>
            rw [List.filterMap_cons_some hst, List.getLast?_cons]
            cases (ds.filterMap AttributeDef.stamp?).getLast? <;> rfl

theorem attributeActions_isSome (ds : List AttributeDef) (g : FormGlobals) :
    (attributeActions ds g).isSome = ds.all AttributeDef.supported := by
  induction ds generalizing g with
  | nil => rfl
  | cons d ds ih =>
    unfold attributeActions
    rw [List.all_cons, ← attributeAction_isSome d g]
    cases attributeAction d g with
    | none => rfl
    | some a =>
      rw [← ih a.2]
      dsimp only
      cases attributeActions ds a.2 <;> rfl

/-! ## The form and the statement -/

private theorem forall_mem_iff_of_forall₂ {α β : Type} {r : α → β → Prop} {p : α → Prop}
    {q : β → Prop} {as : List α} {bs : List β} (h : List.Forall₂ r as bs)
    (hpq : ∀ a b, r a b → (p a ↔ q b)) : (∀ b ∈ bs, q b) ↔ ∀ a ∈ as, p a := by
  induction h with
  | nil => simp
  | cons hab _ ih => rw [List.forall_mem_cons, List.forall_mem_cons, ih, hpq _ _ hab]

private theorem exists_described {ds : List AttributeDef} {cs : List Column} {c : Column}
    (h : List.Forall₂ Describes ds cs) (hc : c ∈ cs) : ∃ d ∈ ds, Describes d c := by
  induction h with
  | nil => exact absurd hc List.not_mem_nil
  | cons hdc _ ih =>
    rcases List.mem_cons.mp hc with rfl | hc
    · exact ⟨_, List.mem_cons_self, hdc⟩
    · obtain ⟨d, hd, hdc⟩ := ih hc
      exact ⟨d, List.mem_cons_of_mem _ hd, hdc⟩

private theorem names_eq {ds : List AttributeDef} {cs : List Column}
    (h : List.Forall₂ Describes ds cs) :
    cs.map Column.m_AttrName = ds.map AttributeDef.column_name := by
  induction h with
  | nil => rfl
  | cons hdc _ ih => rw [List.map_cons, List.map_cons, ih, hdc.name]

/-- A timestamp that reads the data file is not added. -/
theorem not_add_of_dat {d : AttributeDef} {st : Stamp} (h : d.stamp? = some st)
    (hdat : st.mode = .dat) : st.add = false := by
  obtain ⟨name, type, tail⟩ := d
  unfold AttributeDef.stamp? at h
  split at h
  · cases tail with
    | plain flags =>
      rw [← Option.some.inj h]
    | skipStamp v =>
      rw [← Option.some.inj h]
    | addStamp v =>
      rw [← Option.some.inj h] at hdat
      cases v <;> exact TimestampType.noConfusion hdat
    | sized n flags => exact absurd h (by simp)
    | dated format skip => exact absurd h (by simp)
    | zeroScaled n flags => exact absurd h (by simp)
    | scaled n m flags => exact absurd h (by simp)
  · exact absurd h (by simp)

/-- The columns of the table info agree if and only if the timestamps of the form do. -/
theorem agreesOn_columns_iff {form : FormDef} {l : LoadState} {g : FormGlobals}
    (hcols : List.Forall₂ Describes form.attributes l.info.columns)
    (hseqs : l.globals.gSeqArray = form.seqArray)
    (hmode : l.globals.mode = (form.stamps.getLast?.map Stamp.globals).getD g.mode) :
    (∀ c ∈ l.info.columns, l.AgreesOn c) ↔ form.StampsAgree := by
  cases hlast : form.stamps.getLast? with
  | none =>
    have hnone : form.stamps = [] := List.getLast?_eq_none_iff.mp hlast
    have hstamps : ∀ d ∈ form.attributes, d.stamp? = none :=
      fun d hd => List.filterMap_eq_nil_iff.mp hnone d hd
    have hleft : ∀ c ∈ l.info.columns, l.AgreesOn c := by
      intro c hc htime
      obtain ⟨d, hd, hdc⟩ := exists_described hcols hc
      have := hdc.timestamp.mp htime
      rw [hstamps d hd] at this
      exact absurd this (by simp)
    have hright : form.StampsAgree := by
      intro last h
      rw [hlast] at h
      exact absurd h (by simp)
    exact iff_of_true hleft hright
  | some last =>
    rw [hlast] at hmode
    obtain ⟨htype, hadd⟩ := Prod.mk.inj hmode
    have hdat : last.mode = .dat → last.add = false := by
      obtain ⟨d, -, hd⟩ := List.mem_filterMap.mp (List.mem_of_getLast? hlast)
      exact not_add_of_dat hd
    have hcolumn : ∀ d c, Describes d c → ((∀ st ∈ d.stamp?,
        if last.mode = .dat then st.skip = false ∧ form.linked d = false
        else last.add = true ∨ st.skip = true ∨ form.linked d = true) ↔ l.AgreesOn c) := by
      intro d c hdc
      unfold LoadState.AgreesOn FormDef.linked
      rw [hdc.timestamp, hdc.name, hseqs, htype, hadd]
      cases hst : d.stamp? with
      | none => simp
      | some st =>
        rw [hdc.skip st hst]
        by_cases hm : last.mode = .dat
        · cases hskip : st.skip <;> simp [hm, hdat hm, hskip]
        · cases hskip : st.skip <;> cases last.add <;>
            cases seqEqualChk form.seqArray d.column_name <;> simp [hm, hskip]
    rw [forall_mem_iff_of_forall₂ hcols hcolumn]
    unfold FormDef.StampsAgree
    rw [hlast]
    constructor
    · intro h last' hlast'
      rw [Option.mem_some_iff] at hlast'
      exact hlast' ▸ h
    · intro h
      exact h last rfl

/-- A statement is built if and only if the sequences of the form have their columns. -/
theorem checks_eq {form : FormDef} {l : LoadState}
    (hcols : List.Forall₂ Describes form.attributes l.info.columns)
    (hseqs : l.globals.gSeqArray = form.seqArray) :
    (l.seqColChk && l.seqDupChk) = form.seqsLinked := by
  have hany : ∀ s : SeqInfo, (l.info.columns.any fun c => sameCaseless c.m_AttrName s.seqCol) =
      form.attributes.any fun d => sameCaseless d.column_name s.seqCol := by
    intro s
    have hmap := congrArg (fun names => names.any fun n => sameCaseless n s.seqCol) (names_eq hcols)
    rw [List.any_map, List.any_map] at hmap
    exact hmap
  unfold LoadState.seqColChk LoadState.seqDupChk FormDef.seqsLinked
  simp only [hseqs, hany]

/-- An integer column and a timestamp column that is skipped. -/
def skippedStampForm : FormDef where
  seqs := []
  table := ⟨none, "t".toList⟩
  attributes := [
    ⟨"c".toList, "integer".toList, .plain ⟨false, false⟩⟩,
    ⟨"ts".toList, "timestamp".toList, .plain ⟨true, false⟩⟩]
  dateForm := none
  downCond := none
  attributes_ne := List.cons_ne_nil _ _

example : (InsertStatement.mk "t".toList ["c".toList, "ts".toList] [.param 0 none]).text =
    "INSERT INTO t (c,ts) VALUES (?)".toList := by
  decide

end Natc.Ploader
