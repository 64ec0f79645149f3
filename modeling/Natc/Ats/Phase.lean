import Natc.Ats.Service

/-!
# The order of the service thread's sections

Seen from one process, the sections of `runParseTable` follow a fixed protocol: the laborer is
started once, then fed, flushed and waited for, and at last ended and joined. A barrier never
finds a staged command, and nothing is handed over after the end.
-/

namespace Natc.Ats

/-- The process a section works on. -/
def Section.on : Section → Option Process
  | .runLaborer p | .give p _ | .stage p _ | .flush p | .sync p | .endLaborer p | .join p => some p
  | .sleep _ => none

/-- What the service thread has done with one process so far; an active process may have staged
commands. -/
inductive Phase where
  | absent
  | active (staged : Bool)
  | closing
  | joined
  deriving DecidableEq, Repr

/-- The sections the protocol admits in a phase. -/
def Phase.act : Phase → Section → Option Phase
  | .absent, .runLaborer _ => some (.active false)
  | .active false, .give _ _ => some (.active false)
  | .active _, .stage _ _ => some (.active true)
  | .active _, .flush _ => some (.active false)
  | .active false, .sync _ => some (.active false)
  | .active false, .endLaborer _ => some .closing
  | .closing, .join _ => some .joined
  | _, _ => none

def Phase.next (p : Process) (ph : Phase) (sec : Section) : Option Phase :=
  if sec.on = some p then ph.act sec else some ph

/-- The phase behind a list of sections, `none` when one of them breaks the protocol. -/
def Phase.through (p : Process) : Phase → List Section → Option Phase
  | ph, [] => some ph
  | ph, sec :: rest => (ph.next p sec).bind fun ph' => through p ph' rest

namespace Phase

variable {p : Process}

@[simp] theorem through_nil (ph : Phase) : ph.through p [] = some ph := rfl

@[simp] theorem through_cons (ph : Phase) (sec : Section) (rest : List Section) :
    ph.through p (sec :: rest) = (ph.next p sec).bind fun ph' => ph'.through p rest := rfl

theorem through_append (ph : Phase) (as bs : List Section) :
    ph.through p (as ++ bs) = (ph.through p as).bind fun ph' => ph'.through p bs := by
  induction as generalizing ph with
  | nil => rfl
  | cons sec rest ih =>
    rw [List.cons_append, through_cons, through_cons, Option.bind_assoc]
    congr 1
    funext ph'
    exact ih ph'

/-- Two protocol-conforming stretches, one after the other. -/
theorem through_trans {ph ph' ph'' : Phase} {as bs : List Section}
    (ha : ph.through p as = some ph') (hb : ph'.through p bs = some ph'') :
    ph.through p (as ++ bs) = some ph'' := by
  rw [through_append, ha]
  exact hb

/-- Sections of other processes leave the phase alone. -/
theorem through_of_off (ph : Phase) (secs : List Section) (h : ∀ sec ∈ secs, sec.on ≠ some p) :
    ph.through p secs = some ph := by
  induction secs with
  | nil => rfl
  | cons sec rest ih =>
    have hsec := h sec (by simp)
    rw [through_cons, next, if_neg hsec]
    exact ih fun sec' hs => h sec' (by simp [hs])

/-- A family of one kind of section, one for each laborer, seen from a process without a
laborer. -/
theorem through_map_off (ph : Phase) (f : Process → Section) (hf : ∀ q, (f q).on = some q)
    (laborers : List Process) (hp : p ∉ laborers) : ph.through p (laborers.map f) = some ph := by
  apply through_of_off
  intro sec hsec
  obtain ⟨q, hq, rfl⟩ := List.mem_map.mp hsec
  rw [hf q]
  rintro ⟨rfl⟩
  exact hp hq

/-- A section that keeps the phase may be repeated. -/
theorem through_of_keep (ph : Phase) (secs : List Section)
    (h : ∀ sec ∈ secs, ph.next p sec = some ph) : ph.through p secs = some ph := by
  induction secs with
  | nil => rfl
  | cons sec rest ih =>
    rw [through_cons, h sec (by simp)]
    exact ih fun sec' hs => h sec' (by simp [hs])

theorem through_flush (staged : Bool) (laborers : List Process) (hp : p ∈ laborers) :
    (active staged).through p (laborers.map .flush) = some (active false) := by
  induction laborers generalizing staged with
  | nil => simp at hp
  | cons q qs ih =>
    by_cases hq : q = p
    · subst q
      have hkeep : ∀ sec ∈ qs.map Section.flush, (active false).next p sec = some (active false) := by
        intro sec hsec
        obtain ⟨r, _, rfl⟩ := List.mem_map.mp hsec
        by_cases hr : r = p <;> simp [next, Section.on, act, hr]
      simpa [next, Section.on, act] using through_of_keep _ _ hkeep
    · have hps : p ∈ qs := by simpa [Ne.symm hq] using hp
      simpa [next, Section.on, hq] using ih staged hps

theorem through_sync (laborers : List Process) :
    (active false).through p (laborers.map .sync) = some (active false) := by
  apply through_of_keep
  intro sec hsec
  obtain ⟨q, _, rfl⟩ := List.mem_map.mp hsec
  by_cases hq : q = p <;> simp [next, Section.on, act, hq]

end Phase

/-- How a phase goes with the laborer map between two nodes: without a laborer nothing has
happened, and the commands of `P0` are never staged. -/
def Stands (p : Process) (laborers : List Process) (ph : Phase) : Prop :=
  (ph = .absent ∧ p ∉ laborers) ∨ ∃ staged, ph = .active staged ∧ p ∈ laborers ∧
    (p = p0 → staged = false)

section Stands

variable {p : Process} {laborers : List Process} {ph : Phase}

/-- Behind a flush of all laborers nothing is staged. -/
private theorem stands_flush (h : Stands p laborers ph) :
    ∃ ph', ph.through p (laborers.map .flush) = some ph' ∧ Stands p laborers ph' ∧
      ph' ≠ .active true := by
  rcases h with ⟨rfl, hp⟩ | ⟨staged, rfl, hp, h0⟩
  · exact ⟨.absent, Phase.through_map_off _ _ (fun _ => rfl) _ hp, .inl ⟨rfl, hp⟩, by simp⟩
  · exact ⟨.active false, Phase.through_flush _ _ hp, .inr ⟨false, rfl, hp, fun _ => rfl⟩, by simp⟩

/-- Waiting for a laborer without staged commands keeps the phase. -/
private theorem stands_wait (h : Stands p laborers ph) (hclean : ph ≠ .active true)
    (ps : List Process) (hps : ps ⊆ laborers) : ph.through p (ps.map .sync) = some ph := by
  rcases h with ⟨rfl, hp⟩ | ⟨staged, rfl, hp, _⟩
  · exact Phase.through_map_off _ _ (fun _ => rfl) _ fun hm => hp (hps hm)
  · cases staged with
    | true => exact absurd rfl hclean
    | false => exact Phase.through_sync _

private theorem stands_p0_clean (h : Stands p0 laborers ph) : ph ≠ .active true := by
  rcases h with ⟨rfl, _⟩ | ⟨staged, rfl, _, h0⟩
  · simp
  · simp [h0 rfl]

private theorem stands_syncP0 (h : Stands p laborers ph) :
    ph.through p (syncP0 laborers) = some ph := by
  unfold syncP0
  split
  · rename_i h0
    by_cases hp : p = p0
    · subst hp
      exact stands_wait h (stands_p0_clean h) [p0] (by simpa using h0)
    · exact Phase.through_of_off _ _ (by simp [Section.on, Ne.symm hp])
  · rfl

private theorem stands_syncAll (h : Stands p laborers ph) :
    ∃ ph', ph.through p (syncAll laborers) = some ph' ∧ Stands p laborers ph' ∧
      ph' ≠ .active true := by
  obtain ⟨ph', hf, hs, hc⟩ := stands_flush h
  exact ⟨ph', Phase.through_trans hf (stands_wait hs hc laborers fun _ hm => hm), hs, hc⟩

private theorem stands_syncOne (h : Stands p laborers ph) (q : Process) :
    ∃ ph', ph.through p (syncOne laborers q) = some ph' ∧ Stands p laborers ph' := by
  obtain ⟨ph', hf, hs, hc⟩ := stands_flush h
  refine ⟨ph', Phase.through_trans hf ?_, hs⟩
  split
  · rename_i hq
    exact stands_wait hs hc [q] (by simpa using hq)
  · rfl

/-- Handing over one command of an existing process. -/
private theorem stands_pushBack (h : Stands p laborers ph) (q : Process) (hq : q ∈ laborers)
    (d : QueryData) :
    ∃ ph', ph.through p [pushBack q d] = some ph' ∧ Stands p laborers ph' := by
  by_cases hqp : q = p
  · subst q
    rcases h with ⟨rfl, hp⟩ | ⟨staged, rfl, hp, h0⟩
    · exact absurd hq hp
    · by_cases hp0 : p = p0
      · have hst : staged = false := h0 hp0
        subst hst
        exact ⟨.active false, by simp [pushBack, hp0, Phase.next, Section.on, Phase.act],
          .inr ⟨false, rfl, hp, fun _ => rfl⟩⟩
      · exact ⟨.active true, by simp [pushBack, hp0, Phase.next, Section.on, Phase.act],
          .inr ⟨true, rfl, hp, fun h => absurd h hp0⟩⟩
  · refine ⟨ph, Phase.through_of_off _ _ ?_, h⟩
    unfold pushBack
    split <;> simp [Section.on, hqp]

private theorem stands_pushes (h : Stands p laborers ph) (q : Process) (hq : q ∈ laborers)
    (ds : List QueryData) :
    ∃ ph', ph.through p (ds.map (pushBack q)) = some ph' ∧ Stands p laborers ph' := by
  induction ds generalizing ph with
  | nil => exact ⟨ph, rfl, h⟩
  | cons d ds ih =>
    obtain ⟨ph₁, h₁, hs₁⟩ := stands_pushBack h q hq d
    obtain ⟨ph₂, h₂, hs₂⟩ := ih hs₁
    exact ⟨ph₂, Phase.through_trans h₁ h₂, hs₂⟩

end Stands

theorem TableState.mem_withLaborer (st : TableState) (p q : Process) :
    q ∈ st.withLaborer p ↔ q = p ∨ q ∈ st.laborers := by
  unfold withLaborer
  split
  · rename_i h
    constructor
    · exact .inr
    · rintro (rfl | hq)
      · exact h
      · exact hq
  · exact List.mem_orderedInsert _

theorem TableState.nodup_withLaborer (st : TableState) (p : Process) (h : st.laborers.Nodup) :
    (st.withLaborer p).Nodup := by
  unfold withLaborer
  split
  · exact h
  · rename_i hp
    exact ((List.perm_orderedInsert _ p st.laborers).nodup_iff).mpr (List.nodup_cons.mpr ⟨hp, h⟩)

/-- The start of a missing laborer. -/
private theorem stands_start {p : Process} {ph : Phase} (st : TableState) (q : Process)
    (h : Stands p st.laborers ph) :
    ∃ ph', ph.through p (if q ∈ st.laborers then [] else [.runLaborer q]) = some ph' ∧
      Stands p (st.withLaborer q) ph' := by
  by_cases hq : q ∈ st.laborers
  · refine ⟨ph, by simp [hq], ?_⟩
    simpa only [TableState.withLaborer, if_pos hq] using h
  · rw [if_neg hq]
    by_cases hqp : q = p
    · subst q
      rcases h with ⟨rfl, _⟩ | ⟨_, _, hp, _⟩
      · exact ⟨.active false, by simp [Phase.next, Section.on, Phase.act],
          .inr ⟨false, rfl, (st.mem_withLaborer p p).mpr (.inl rfl), fun _ => rfl⟩⟩
      · exact absurd hp hq
    · refine ⟨ph, Phase.through_of_off _ _ (by simp [Section.on, hqp]), ?_⟩
      have hm : p ∈ st.withLaborer q ↔ p ∈ st.laborers := by
        simp [st.mem_withLaborer, Ne.symm hqp]
      simpa only [Stands, hm] using h

private theorem stands_pwait {p : Process} {ph : Phase} (ctx : Context)
    {laborers : List Process} (h : Stands p laborers ph) (h0 : p0 ∈ laborers) (q : Process)
    (echo : QueryData) :
    ∃ ph', ph.through p (pwaitSections ctx laborers q echo) = some ph' ∧
      Stands p laborers ph' := by
  have hfirst := stands_syncP0 h
  unfold pwaitSections
  split
  · obtain ⟨ph₁, h₁, hs₁, _⟩ := stands_syncAll h
    obtain ⟨ph₂, h₂, hs₂⟩ := stands_pushBack hs₁ p0 h0 echo
    exact ⟨ph₂, Phase.through_trans hfirst (Phase.through_trans h₁ h₂), hs₂⟩
  · split
    · obtain ⟨ph₁, h₁, hs₁, _⟩ := stands_flush h
      obtain ⟨ph₂, h₂, hs₂⟩ := stands_pushBack hs₁ p0 h0 echo
      have hsleep : ph₂.through p [.sleep (ctx.staf.asUInt q)] = some ph₂ :=
        Phase.through_of_off _ _ (by simp [Section.on])
      exact ⟨ph₂, Phase.through_trans hfirst
        (Phase.through_trans h₁ (Phase.through_trans h₂ hsleep)), hs₂⟩
    · obtain ⟨ph₁, h₁, hs₁⟩ := stands_syncOne h q
      obtain ⟨ph₂, h₂, hs₂⟩ := stands_pushBack hs₁ p0 h0 echo
      exact ⟨ph₂, Phase.through_trans hfirst (Phase.through_trans h₁ h₂), hs₂⟩

/-- One node keeps the protocol; only a PWAIT needs the laborer of `P0`. -/
private theorem stands_runNode {p : Process} {ph : Phase} (ctx : Context) (st : TableState)
    (node : PsNode) (h : Stands p st.laborers ph) (h0 : node.type = .pwait → p0 ∈ st.laborers) :
    ∃ ph', ph.through p (runNode ctx st node).2 = some ph' ∧
      Stands p (runNode ctx st node).1.laborers ph' := by
  unfold runNode
  cases hn : node.type with
  | normal =>
    obtain ⟨ph₁, h₁, hs₁⟩ := stands_start st node.process h
    have hq : node.process ∈ st.withLaborer node.process :=
      (st.mem_withLaborer _ _).mpr (.inl rfl)
    obtain ⟨ph₂, h₂, hs₂⟩ := stands_pushes hs₁ node.process hq (normalCommands ctx st node).2
    exact ⟨ph₂, Phase.through_trans h₁ h₂, hs₂⟩
  | pwait => exact stands_pwait ctx h (h0 hn) node.process _

/-- The laborers of a node are those before it, and for an ordinary node its own. -/
theorem laborers_runNode (ctx : Context) (st : TableState) (node : PsNode) :
    (runNode ctx st node).1.laborers =
      if node.type = .normal then st.withLaborer node.process else st.laborers := by
  unfold runNode
  cases hn : node.type <;> simp

private theorem nodup_runNode (ctx : Context) (st : TableState) (node : PsNode)
    (h : st.laborers.Nodup) : (runNode ctx st node).1.laborers.Nodup := by
  rw [laborers_runNode]
  split
  · exact st.nodup_withLaborer _ h
  · exact h

private theorem mem_runNode (ctx : Context) (st : TableState) (node : PsNode) {q : Process}
    (h : q ∈ st.laborers) : q ∈ (runNode ctx st node).1.laborers := by
  rw [laborers_runNode]
  split
  · exact (st.mem_withLaborer _ q).mpr (.inr h)
  · exact h

private theorem stands_runNodes {p : Process} {ph : Phase} (ctx : Context) (st : TableState)
    (nodes : List PsNode) (h : Stands p st.laborers ph) (h0 : p0 ∈ st.laborers)
    (hn : st.laborers.Nodup) :
    ∃ ph', ph.through p (runNodes ctx st nodes).2 = some ph' ∧
      Stands p (runNodes ctx st nodes).1.laborers ph' ∧
      (runNodes ctx st nodes).1.laborers.Nodup := by
  induction nodes generalizing ph st with
  | nil => exact ⟨ph, rfl, h, hn⟩
  | cons node nodes ih =>
    obtain ⟨ph₁, h₁, hs₁⟩ := stands_runNode ctx st node h fun _ => h0
    obtain ⟨ph₂, h₂, hs₂, hn₂⟩ :=
      ih _ hs₁ (mem_runNode ctx st node h0) (nodup_runNode ctx st node hn)
    exact ⟨ph₂, Phase.through_trans h₁ h₂, hs₂, hn₂⟩

/-- The nodes of a table, whose first one starts the laborer of `P0`. -/
private theorem stands_table (p : Process) (ctx : Context) (table : PsTable) :
    ∃ ph, Phase.absent.through p (runNodes ctx .init table.nodeList).2 = some ph ∧
      Stands p (runNodes ctx .init table.nodeList).1.laborers ph ∧
      (runNodes ctx .init table.nodeList).1.laborers.Nodup := by
  have hinit : Stands p TableState.init.laborers .absent := .inl ⟨rfl, by simp [TableState.init]⟩
  obtain ⟨ph₁, h₁, hs₁⟩ :=
    stands_runNode ctx .init ⟨.normal, p0, table.first⟩ hinit (by simp)
  obtain ⟨ph₂, h₂, hs₂, hn₂⟩ := stands_runNodes ctx _ table.later hs₁
    (by rw [laborers_runNode, if_pos rfl, TableState.mem_withLaborer]; exact .inl rfl)
    (nodup_runNode ctx _ _ List.nodup_nil)
  exact ⟨ph₂, Phase.through_trans h₁ h₂, hs₂, hn₂⟩

private theorem through_ends (p : Process) (laborers : List Process) (hp : p ∈ laborers)
    (hn : laborers.Nodup) :
    (Phase.active false).through p (laborers.flatMap fun q => [.endLaborer q, .join q]) =
      some .joined := by
  induction laborers with
  | nil => simp at hp
  | cons q qs ih =>
    obtain ⟨hq, hn⟩ := List.nodup_cons.mp hn
    rw [List.flatMap_cons]
    by_cases hqp : q = p
    · subst q
      refine Phase.through_trans (by simp [Phase.next, Section.on, Phase.act])
        (Phase.through_of_off _ _ ?_)
      intro sec hsec
      obtain ⟨r, hr, hsec⟩ := List.mem_flatMap.mp hsec
      have hrp : r ≠ p := fun h => hq (h ▸ hr)
      have hon : sec.on = some r := by
        rcases List.mem_pair.mp hsec with rfl | rfl <;> rfl
      simp [hon, hrp]
    · exact Phase.through_trans (Phase.through_of_off _ _ (by simp [Section.on, hqp]))
        (ih (by simpa [Ne.symm hqp] using hp) hn)

/-- Every process goes through its protocol: it never gets a laborer, or its laborer is started,
fed, waited for, ended and joined. -/
theorem through_runParseTable (p : Process) (ctx : Context) (table : PsTable) :
    ∃ ph, Phase.absent.through p (runParseTable ctx table) = some ph ∧
      (ph = .absent ∨ ph = .joined) := by
  obtain ⟨ph₁, h₁, hs₁, hn⟩ := stands_table p ctx table
  obtain ⟨ph₂, h₂, hs₂, hclean⟩ := stands_syncAll hs₁
  rcases hs₂ with ⟨rfl, hp⟩ | ⟨staged, rfl, hp, _⟩
  · refine ⟨.absent, Phase.through_trans h₁ (Phase.through_trans h₂ ?_), .inl rfl⟩
    refine Phase.through_of_off _ _ fun sec hsec => ?_
    obtain ⟨r, hr, hsec⟩ := List.mem_flatMap.mp hsec
    have hrp : r ≠ p := fun h => hp (h ▸ hr)
    rcases List.mem_pair.mp hsec with rfl | rfl <;> simp [Section.on, hrp]
  · cases staged with
    | true => exact absurd rfl hclean
    | false =>
      exact ⟨.joined, Phase.through_trans h₁ (Phase.through_trans h₂ (through_ends p _ hp hn)),
        .inr rfl⟩

end Natc.Ats
