import Natc.Ats.Barrier

/-!
# Delivery of the script's commands

In a normal test in which no laborer fails, every process executes the commands that the script
addresses to it: all of them, in script order, each once.
-/

namespace Natc.Ats

open Lib

/-- The commands of one node with the process each is addressed to. A PWAIT adds its echo for
`P0`. -/
def nodeCommands (ctx : Context) (st : TableState) (node : PsNode) : List (Process × QueryData) :=
  match node.type with
  | .normal => (normalCommands ctx st node).2.map fun d => (node.process, d)
  | .pwait => [(p0, pwaitEcho node.process st.locals.data)]

def nodesCommands (ctx : Context) : TableState → List PsNode → List (Process × QueryData)
  | _, [] => []
  | st, node :: nodes =>
      nodeCommands ctx st node ++ nodesCommands ctx (runNode ctx st node).1 nodes

/-- The commands of a script, in script order. -/
def scriptCommands (ctx : Context) (table : PsTable) : List (Process × QueryData) :=
  nodesCommands ctx .init table.nodeList

/-- The commands addressed to one process. -/
def addressed (p : Process) (commands : List (Process × QueryData)) : List QueryData :=
  commands.filterMap fun c => if c.1 = p then some c.2 else none

/-- The commands a process has executed so far. -/
def executed (s : Sys) (p : Process) : List QueryData :=
  ((s.laborer p).elim [] Laborer.results).map Issued.data

/-- No laborer fails in the step. -/
def noFailure (_ : Sys) : Label → Bool
  | .laborer _ .failed => false
  | _ => true

/-- The command a section hands over for a process. -/
def Section.command (p : Process) : Section → Option QueryData
  | .give q d | .stage q d => if q = p then some d else none
  | _ => none

private theorem data_issue (p : Process) (n : Nat) (sec : Section) :
    (sec.issue p n).map Issued.data = sec.command p := by
  cases sec <;> simp only [Section.issue, Section.command, Option.map_none]
  all_goals split <;> rfl

theorem data_issued (p : Process) (secs : List Section) :
    (issued p secs).map Issued.data = secs.filterMap (Section.command p) := by
  induction secs using List.reverseRecOn with
  | nil => rfl
  | append_singleton secs sec ih =>
    rw [issued_concat, List.map_append, ih, List.filterMap_append]
    have hdata := data_issue p secs.length sec
    cases h : sec.issue p secs.length <;> rw [h] at hdata <;> simp [← hdata]

section Script

variable (p : Process)

@[simp] theorem addressed_append (as bs : List (Process × QueryData)) :
    addressed p (as ++ bs) = addressed p as ++ addressed p bs :=
  List.filterMap_append

/-- Sections that wait or flush hand nothing over. -/
private theorem command_map (f : Process → Section) (hf : ∀ q, (f q).command p = none)
    (laborers : List Process) : (laborers.map f).filterMap (Section.command p) = [] := by
  simp [hf]

private theorem command_pushBack (q : Process) (d : QueryData) :
    (pushBack q d).command p = if q = p then some d else none := by
  unfold pushBack
  split <;> rfl

private theorem command_pushes (q : Process) (ds : List QueryData) :
    (ds.map (pushBack q)).filterMap (Section.command p) =
      addressed p (ds.map fun d => (q, d)) := by
  simp only [addressed, List.filterMap_map, Function.comp_def, command_pushBack]

private theorem command_syncAll (laborers : List Process) :
    (syncAll laborers).filterMap (Section.command p) = [] := by
  simp [syncAll, Section.command]

private theorem command_pwait (ctx : Context) (laborers : List Process) (q : Process)
    (echo : QueryData) :
    (pwaitSections ctx laborers q echo).filterMap (Section.command p) =
      addressed p [(p0, echo)] := by
  have hsync : (syncP0 laborers).filterMap (Section.command p) = [] := by
    unfold syncP0
    split <;> simp [Section.command]
  have hasync : (async laborers).filterMap (Section.command p) = [] :=
    command_map p _ (fun _ => rfl) laborers
  have hone : (syncOne laborers q).filterMap (Section.command p) = [] := by
    unfold syncOne
    split <;> simp [Section.command]
  have hecho : [pushBack p0 echo].filterMap (Section.command p) = addressed p [(p0, echo)] :=
    command_pushes p p0 [echo]
  unfold pwaitSections
  rw [List.filterMap_append, hsync, List.nil_append]
  split
  · rw [List.filterMap_append, command_syncAll, hecho, List.nil_append]
  · split
    · rw [List.append_cons, List.filterMap_append, List.filterMap_append, hasync, hecho]
      simp [Section.command]
    · rw [List.filterMap_append, hone, hecho, List.nil_append]

private theorem command_runNode (ctx : Context) (st : TableState) (node : PsNode) :
    (runNode ctx st node).2.filterMap (Section.command p) =
      addressed p (nodeCommands ctx st node) := by
  unfold runNode nodeCommands
  cases node.type with
  | normal =>
    rw [List.filterMap_append, command_pushes]
    split <;> simp [Section.command]
  | pwait => exact command_pwait p ctx _ _ _

private theorem command_runNodes (ctx : Context) (st : TableState) (nodes : List PsNode) :
    (runNodes ctx st nodes).2.filterMap (Section.command p) =
      addressed p (nodesCommands ctx st nodes) := by
  induction nodes generalizing st with
  | nil => rfl
  | cons node nodes ih =>
    rw [runNodes, List.filterMap_append, command_runNode, ih, nodesCommands, addressed_append]

/-- The sections of the service thread issue the script's commands, and nothing else. -/
theorem command_runParseTable (ctx : Context) (table : PsTable) :
    (runParseTable ctx table).filterMap (Section.command p) =
      addressed p (scriptCommands ctx table) := by
  have hend : ∀ laborers, (syncLaborer laborers).filterMap (Section.command p) = [] := by
    intro laborers
    rw [syncLaborer, List.filterMap_append, command_syncAll, List.nil_append,
      List.filterMap_flatMap]
    simp [Section.command]
  rw [runParseTable, List.filterMap_append, command_runNodes, hend, List.append_nil]
  rfl

end Script

/-- What a process looks like as long as no laborer fails and no server is killed. -/
structure Smooth (l : Option Laborer) (cs : List Issued) : Prop where
  staged : ∀ c ∈ cs, c.rearmed = false
  alive : ∀ a ∈ l, a.pc ≠ .failed
  given : ∀ a ∈ l, ∀ c ∈ a.received, c.rearmed = false

namespace Smooth

variable {l l' : Option Laborer} {cs cs' : List Issued}

theorem acts {n : Nat} {sec : Section} (h : Smooth l cs) (ha : Acts n sec l cs l' cs') :
    Smooth l' cs' := by
  cases ha with
  | runLaborer p =>
    refine ⟨by simp, ?_, ?_⟩ <;> rintro a ⟨rfl⟩ <;>
      simp [Laborer.initialized, Laborer.received, LaborerPc.command]
  | give p q a =>
    refine ⟨h.staged, ?_, ?_⟩ <;> rintro b ⟨rfl⟩
    · exact h.alive a rfl
    · simpa [Laborer.received, Laborer.pushBack, or_imp, forall_and, and_assoc]
        using h.given a rfl
  | stage p q =>
    exact ⟨by simpa [or_imp, forall_and] using h.staged, h.alive, h.given⟩
  | flush p a =>
    refine ⟨by simp, ?_, ?_⟩ <;> rintro b ⟨rfl⟩
    · exact h.alive a rfl
    · have hgiven := h.given a rfl
      simp only [Laborer.received, List.mem_append, Option.mem_toList, or_imp, forall_and]
        at hgiven
      simpa [Laborer.received, Laborer.pushBack, or_imp, forall_and]
        using ⟨hgiven.1.1, hgiven.1.2, hgiven.2, h.staged⟩
  | sync p a => exact h
  | endLaborer p a =>
    refine ⟨h.staged, ?_, ?_⟩ <;> rintro b ⟨rfl⟩
    · exact h.alive a rfl
    · exact h.given a rfl
  | join p a => exact h

/-- In a normal test nothing is put back into a queue. -/
theorem moves {o : Outcome} {a b : Laborer} (h : Smooth (some a) cs) (ho : o ≠ .failed)
    (hm : a.Moves .normal o b) : Smooth (some b) cs := by
  have hgiven := h.given a rfl
  have halive := h.alive a rfl
  refine ⟨h.staged, ?_, ?_⟩ <;> rintro c ⟨rfl⟩
  · cases hm with
    | idle => exact halive
    | fail => exact absurd rfl ho
    | rearm _ _ hkind => cases hkind
    | enter | stop | leave | take | finish => simp [Laborer.enterRunReal, Laborer.complete]
  · cases hm with
    | idle => exact hgiven
    | fail => exact absurd rfl ho
    | rearm _ _ hkind => cases hkind
    | enter hpc | stop hpc | leave hpc =>
      simpa [Laborer.enterRunReal, Laborer.received, LaborerPc.command, hpc] using hgiven
    | take d rest hpc hq =>
      simpa [Laborer.received, LaborerPc.command, hpc, hq, or_imp, forall_and] using hgiven
    | finish d hpc =>
      simpa [Laborer.complete, Laborer.received, LaborerPc.command, hpc, or_imp, forall_and]
        using hgiven

end Smooth

/-- The invariant of the runs of a normal test without failures. -/
def Smoothly (prog : List Section) (s : Sys) : Prop :=
  (∃ done, Flow prog done s) ∧ ∀ p, Smooth (s.laborer p) (s.staged p)

theorem Smoothly.step {prog : List Section} {s s' : Sys} {lab : Label} (h : Smoothly prog s)
    (hprog : ∀ p, (Phase.absent.through p prog).isSome) (hok : noFailure s lab)
    (hs : Sys.step .normal s lab = some s') : Smoothly prog s' := by
  obtain ⟨⟨done, hflow⟩, hsmooth⟩ := h
  rcases Sys.step_cases hs with ⟨sec, rest, rfl, htodo, hs⟩ | ⟨p, o, l, l', rfl, hl, hm, rfl⟩
  · have hflow' : ∃ done', Flow prog done' s' := by
      rcases hflow.section_step hprog htodo hs with rfl | hflow'
      · exact ⟨done, hflow⟩
      · exact ⟨_, hflow'⟩
    rcases Sys.section_cases hs with rfl | ⟨_, _, hacts⟩
    · exact ⟨⟨done, hflow⟩, hsmooth⟩
    refine ⟨hflow', fun p => ?_⟩
    by_cases hon : sec.on = some p
    · exact (hsmooth p).acts ((hacts p).1 hon)
    · obtain ⟨hl, hst⟩ := (hacts p).2 hon
      rw [hl, hst]
      exact hsmooth p
  · refine ⟨⟨done, hflow.laborer_step hl hm⟩, fun q => ?_⟩
    by_cases hq : q = p
    · subst q
      have ho : o ≠ .failed := by
        rintro rfl
        cases hok
      have hp := hsmooth p
      rw [hl] at hp
      simpa [Sys.setLaborer] using hp.moves ho hm
    · simpa [Sys.setLaborer, hq] using hsmooth q

/-- A laborer that has ended without a failure has executed what it was handed. -/
private theorem results_of_ended {l : Laborer} {cs : List Issued} (hs : l.Sound)
    (h : Smooth (some l) cs) (hpc : l.pc.returned) : l.results = l.handed := by
  have halive := h.alive l rfl
  have hended : l.pc = .ended := by
    cases hp : l.pc <;> simp_all [LaborerPc.returned]
  have hreceived : l.received = l.results := by
    simp [Laborer.received, hended, LaborerPc.command, (hs.drained hended).2]
  have hgiven := h.given l rfl
  rw [hs.conserved halive, List.filter_eq_self.mpr fun c hc => by simp [hgiven c hc], hreceived]

/-- At the end of the program nothing is staged, and what was handed over has been executed. -/
private theorem results_of_final {ph : Phase} {l : Option Laborer} {cs : List Issued}
    (hag : Agrees ph l cs) (hfinal : ph = .absent ∨ ph = .joined) (hsound : ∀ a ∈ l, a.Sound)
    (hs : Smooth l cs) : l.elim [] Laborer.results = handedOf l ++ cs := by
  cases hag with
  | absent => rfl
  | joined hend hpc => simp [handedOf, results_of_ended (hsound _ rfl) hs hpc]
  | active | closing => simp at hfinal

/-- When `syncLaborer` has returned in a normal test in which no laborer failed, every process has
executed the commands the script addresses to it, in script order and each once. -/
theorem executed_eq_addressed (ctx : Context) (table : PsTable) (s : Sys)
    (hkind : ctx.testKind = .normal)
    (h : (service ctx table).Reach (fun s lab => noFailure s lab) s)
    (hreturned : s.todo = []) (p : Process) :
    executed s p = addressed p (scriptCommands ctx table) := by
  have hinv : Smoothly (runParseTable ctx table) s := by
    refine h.invariant ⟨⟨[], .start _⟩, fun p => ⟨by simp [service], by simp [service],
      by simp [service]⟩⟩ ?_
    intro s lab s' hk hok hs
    rw [service, hkind] at hs
    exact hk.step (isSome_runParseTable ctx table) hok hs
  obtain ⟨⟨done, hflow⟩, hsmooth⟩ := hinv
  have hdone : runParseTable ctx table = done := by
    simpa [hreturned] using hflow.split
  have hloc := hflow.atProcess p
  have hs := hsmooth p
  obtain ⟨ph, hph, hfinal⟩ := through_runParseTable p ctx table
  have hag := hloc.agrees ph (hdone ▸ hph)
  rw [executed, results_of_final hag hfinal hloc.sound hs, hloc.issued_eq, data_issued, ← hdone,
    command_runParseTable]

/-- A run of the script of one INSERT and one PWAIT to its end. -/
def fullSchedule : List Label :=
  quietSchedule ++ List.replicate 4 (.laborer p0 .ok) ++ [.laborer "P1".toList .ok] ++
    List.replicate 5 .servicer ++ [.laborer p0 .ok, .servicer, .servicer] ++
    [.laborer "P1".toList .ok, .servicer]

theorem executed_eq_addressed_insert :
    ∃ s, s.todo = [] ∧
      ∀ p, executed s p = addressed p (scriptCommands plainContext insertThenPwait) := by
  obtain ⟨s, hs, hreturned⟩ := Machine.exists_reach_of_exec
    (service plainContext insertThenPwait) noFailure (fun s => s.todo.isEmpty) fullSchedule
    (by decide)
  have hnil : s.todo = [] := List.isEmpty_iff.mp hreturned
  exact ⟨s, hnil, executed_eq_addressed plainContext insertThenPwait s rfl hs hnil⟩

end Natc.Ats
