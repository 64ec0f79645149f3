import Natc.Ats.Phase

/-!
# The laborers of a run

`runLaborer` creates a laborer and starts its thread, `syncLaborer` ends and joins the threads, and
`endLaborer` destroys the objects. Each of their calls may fail; a walk that fails goes on with
`endLaborer` all the same.
-/

namespace Natc.Ats

/-- What happens to a `Laborer` and its thread. -/
inductive LifeEvent where
  | new
  | start
  | mEnd
  | join
  | destroy
  | delete
  deriving DecidableEq, Repr

/-- The keys of `mLaborer` in map order, and what has happened so far. -/
structure LaborerList where
  mLaborer : List Process
  events : List (Process × LifeEvent)

/-- The calls that fail. No call is made twice for a process. -/
structure Failures where
  parseOption : Bool
  load : Bool
  /-- `loadCASE`, `loadORACLE` or `psparse`. -/
  parse : Bool
  new : Process → Bool
  initializing : Process → Bool
  start : Process → Bool
  lock : Process → Bool
  unlock : Process → Bool
  join : Process → Bool
  endLock : Bool
  destroy : Process → Bool

namespace LaborerList

def log (s : LaborerList) (p : Process) (es : List LifeEvent) : LaborerList :=
  { s with events := s.events ++ es.map (p, ·) }

/-- `Servicer::runLaborer`; `waitToStart` never fails. -/
def runLaborer (f : Failures) (s : LaborerList) (p : Process) : LaborerList × Bool :=
  if f.new p then (s, false)
  else if f.initializing p then (s.log p [.new], false)
  else if f.start p then (s.log p [.new], false)
  else if f.lock p then (s.log p [.new, .start], false)
  else
    ({ s.log p [.new, .start] with mLaborer := s.mLaborer.orderedInsert (· ≤ ·) p }, !f.unlock p)

/-- What a section does to the laborers, and whether the service thread goes on behind it; the
results of `push_back` and `sync` are not read. -/
def act (f : Failures) (s : LaborerList) : Section → LaborerList × Bool
  | .runLaborer p => s.runLaborer f p
  | .endLaborer p => (s.log p [.mEnd], true)
  | .join p => if f.join p then (s, false) else (s.log p [.join], true)
  | .give _ _ | .stage _ _ | .flush _ | .sync _ | .sleep _ => (s, true)

/-- `runParseTable`. A failed `runLaborer` leaves it, a failed join leaves `syncLaborer`, behind
which nothing more happens to the laborers. -/
def runParseTable (f : Failures) : LaborerList → List Section → LaborerList × Bool
  | s, [] => (s, true)
  | s, sec :: secs =>
      let done := s.act f sec
      if done.2 then runParseTable f done.1 secs else done

/-- The loop of `endLaborer`. -/
def destroyAll (f : Failures) : LaborerList → List Process → LaborerList
  | s, [] => { s with mLaborer := [] }
  | s, p :: ps =>
      if f.destroy p then s.log p [.destroy] else destroyAll f (s.log p [.destroy, .delete]) ps

/-- `Servicer::endLaborer`; behind the loop only the mutex is unlocked. -/
def endLaborer (f : Failures) (s : LaborerList) : LaborerList :=
  if f.endLock then s else s.destroyAll f s.mLaborer

/-- `Servicer::runReal`: every failure is reported, and the result is `IDE_SUCCESS`. -/
def runReal (f : Failures) (secs : List Section) : LaborerList :=
  if f.parse then ⟨[], []⟩ else (runParseTable f ⟨[], []⟩ secs).1

/-- `Servicer::run`. -/
def run (f : Failures) (secs : List Section) : LaborerList :=
  if f.parseOption || f.load then ⟨[], []⟩ else (runReal f secs).endLaborer f

end LaborerList

/-- What is promised of the laborers of a run. `quits` are those whose thread has returned by
itself, as `Laborer::run` does behind a failed lock or a failed command. -/
structure LivedWell (quits : Process → Prop) (events : List (Process × LifeEvent)) : Prop where
  joined : ∀ p before after, events = before ++ (p, .destroy) :: after → (p, .start) ∈ events →
    (p, .mEnd) ∈ before ∧ (p, .join) ∈ before
  once : ∀ p, (p, .new) ∈ events →
    events.count (p, .destroy) = 1 ∧ events.count (p, .delete) = 1
  returned : ∀ p, (p, .start) ∈ events → (p, .join) ∈ events ∨ quits p

/-- The processes of a script. -/
def PsTable.processes (table : PsTable) : List Process :=
  (table.nodeList.filter (·.type = .normal)).map PsNode.process

/-- Every call of `runLaborer` for the process succeeds. -/
def Failures.creates (f : Failures) (p : Process) : Bool :=
  !f.new p && !f.initializing p && !f.start p && !f.lock p && !f.unlock p

/-- No call for these processes fails. -/
structure Failures.Clean (f : Failures) (ps : List Process) : Prop where
  creates : ∀ p ∈ ps, f.creates p
  join : ∀ p ∈ ps, f.join p = false
  endLock : f.endLock = false
  destroy : ∀ p ∈ ps, f.destroy p = false

/-- The run ends before there is a laborer, or nothing fails from there on. -/
def Failures.Harmless (f : Failures) (ps : List Process) : Prop :=
  f.parseOption ∨ f.load ∨ f.parse ∨ f.new p0 ∨ f.Clean ps

/-- The sections that concern the life of a laborer. -/
def Section.ofLife : Section → Bool
  | .runLaborer _ | .endLaborer _ | .join _ => true
  | .give _ _ | .stage _ _ | .flush _ | .sync _ | .sleep _ => false

section Sections

/-- The key of a new laborer is put where the map keeps it. -/
def insertAll (laborers : List Process) (ps : List Process) : List Process :=
  ps.foldl (fun ls p => ls.orderedInsert (· ≤ ·) p) laborers

theorem perm_insertAll (laborers ps : List Process) :
    (insertAll laborers ps).Perm (ps ++ laborers) := by
  induction ps generalizing laborers with
  | nil => exact .refl _
  | cons p ps ih =>
    have hrest := ih (laborers.orderedInsert (· ≤ ·) p)
    have hinsert := (List.perm_orderedInsert (· ≤ ·) p laborers).append_left ps
    exact hrest.trans (hinsert.trans List.perm_middle)

private theorem ofLife_pushBack (p : Process) (q : QueryData) : (pushBack p q).ofLife = false := by
  unfold pushBack
  split <;> rfl

private theorem ofLife_syncAll (laborers : List Process) :
    ∀ sec ∈ syncAll laborers, sec.ofLife = false :=
  List.forall_mem_append.mpr
    ⟨List.forall_mem_map.mpr fun _ _ => rfl, List.forall_mem_map.mpr fun _ _ => rfl⟩

private theorem ofLife_pwait (ctx : Context) (laborers : List Process) (p : Process)
    (echo : QueryData) : ∀ sec ∈ pwaitSections ctx laborers p echo, sec.ofLife = false := by
  have hflush : ∀ sec ∈ laborers.map Section.flush, sec.ofLife = false :=
    List.forall_mem_map.mpr fun _ _ => rfl
  have hsync : ∀ q, ∀ sec ∈ if q ∈ laborers then [Section.sync q] else [], sec.ofLife = false := by
    intro q
    split <;> simp [Section.ofLife]
  have hecho : (pushBack p0 echo).ofLife = false := ofLife_pushBack p0 echo
  unfold pwaitSections
  refine List.forall_mem_append.mpr ⟨hsync p0, ?_⟩
  split
  · exact List.forall_mem_append.mpr ⟨ofLife_syncAll laborers, List.forall_mem_singleton.mpr hecho⟩
  · split
    · exact List.forall_mem_append.mpr ⟨hflush, List.forall_mem_cons.mpr
        ⟨hecho, List.forall_mem_singleton.mpr rfl⟩⟩
    · exact List.forall_mem_append.mpr ⟨List.forall_mem_append.mpr ⟨hflush, hsync p⟩,
        List.forall_mem_singleton.mpr hecho⟩

/-- The processes whose laborer is created by the nodes, in the order of the script. -/
def created : List Process → List PsNode → List Process
  | _, [] => []
  | laborers, node :: nodes =>
      if node.type = .pwait then created laborers nodes
      else if laborers.any (· = node.process) then created laborers nodes
      else node.process :: created (laborers.orderedInsert (· ≤ ·) node.process) nodes

private theorem life_runNodes (ctx : Context) (st : TableState) (nodes : List PsNode) :
    (runNodes ctx st nodes).2.filter Section.ofLife =
        (created st.laborers nodes).map Section.runLaborer ∧
      (runNodes ctx st nodes).1.laborers = insertAll st.laborers (created st.laborers nodes) := by
  induction nodes generalizing st with
  | nil => exact ⟨rfl, rfl⟩
  | cons node nodes ih =>
    have hlater := ih (runNode ctx st node).1
    have hlaborers := laborers_runNode ctx st node
    rw [hlaborers] at hlater
    rw [runNodes, List.filter_append, hlater.1, hlater.2, created]
    cases htype : node.type with
    | pwait =>
      have hnow : (runNode ctx st node).2.filter Section.ofLife = [] := by
        rw [List.filter_eq_nil_iff, runNode, htype]
        simpa using ofLife_pwait ctx st.laborers node.process _
      simp [hnow]
    | normal =>
      have hpushes : ((normalCommands ctx st node).2.map (pushBack node.process)).filter
          Section.ofLife = [] := by
        rw [List.filter_eq_nil_iff]
        simpa using fun q _ => ofLife_pushBack node.process q
      by_cases hmem : node.process ∈ st.laborers
      · have hnow : (runNode ctx st node).2.filter Section.ofLife = [] := by
          rw [runNode, htype]
          simp only [hmem, if_true, List.nil_append, hpushes]
        simp [hnow, hmem, TableState.withLaborer]
      · have hnow : (runNode ctx st node).2.filter Section.ofLife =
            [.runLaborer node.process] := by
          rw [runNode, htype]
          simp only [hmem, if_false, List.filter_append, hpushes]
          rfl
        simp [hnow, hmem, TableState.withLaborer, insertAll]

/-- What a script does to the laborers: it creates them, then ends and joins each of them. -/
theorem life_runParseTable (ctx : Context) (table : PsTable) :
    (runParseTable ctx table).filter Section.ofLife =
      (created [] table.nodeList).map Section.runLaborer ++
        (insertAll [] (created [] table.nodeList)).flatMap fun p => [.endLaborer p, .join p] := by
  have hnodes := life_runNodes ctx .init table.nodeList
  have hsync : ∀ laborers, (syncLaborer laborers).filter Section.ofLife =
      laborers.flatMap fun p => [.endLaborer p, .join p] := by
    intro laborers
    have hall : (syncAll laborers).filter Section.ofLife = [] := by
      rw [List.filter_eq_nil_iff]
      simpa using ofLife_syncAll laborers
    rw [syncLaborer, List.filter_append, hall, List.nil_append, List.filter_eq_self]
    intro sec hsec
    obtain ⟨p, _, hsec⟩ := List.mem_flatMap.mp hsec
    rcases List.mem_pair.mp hsec with rfl | rfl <;> rfl
  rw [runParseTable, List.filter_append, hnodes.1, hsync, hnodes.2]
  rfl

theorem mem_created {laborers : List Process} {nodes : List PsNode} {p : Process} :
    p ∈ created laborers nodes ↔
      p ∉ laborers ∧ p ∈ (nodes.filter (·.type = .normal)).map PsNode.process := by
  induction nodes generalizing laborers with
  | nil => simp [created]
  | cons node nodes ih =>
    rw [created]
    cases htype : node.type with
    | pwait => simp [htype, ih]
    | normal =>
      rw [if_neg (by simp)]
      split
      · rename_i hany
        have hmem : node.process ∈ laborers := by simpa using hany
        have hne : p ∉ laborers → p ≠ node.process := fun hp heq => hp (heq ▸ hmem)
        rw [ih]
        simp only [htype, List.filter_cons, decide_true, if_true, List.map_cons, List.mem_cons]
        tauto
      · rename_i hany
        have hmem : node.process ∉ laborers := by simpa using hany
        rw [List.mem_cons, ih, List.mem_orderedInsert]
        by_cases hp : p = node.process
        · simp [hp, htype, hmem]
        · simp [hp, htype]

theorem nodup_created (laborers : List Process) (nodes : List PsNode) :
    (created laborers nodes).Nodup := by
  induction nodes generalizing laborers with
  | nil => exact List.nodup_nil
  | cons node nodes ih =>
    rw [created]
    split
    · exact ih laborers
    split
    · exact ih laborers
    · refine List.nodup_cons.mpr ⟨fun hmem => ?_, ih _⟩
      exact (mem_created.mp hmem).1 ((List.mem_orderedInsert _).mpr (.inl rfl))

end Sections

namespace LaborerList

variable {f : Failures} {s : LaborerList}

theorem runParseTable_filter (s : LaborerList) (secs : List Section) :
    s.runParseTable f (secs.filter Section.ofLife) = s.runParseTable f secs := by
  induction secs generalizing s with
  | nil => rfl
  | cons sec secs ih =>
    cases sec with
    | runLaborer p | endLaborer p | join p =>
      rw [List.filter_cons_of_pos rfl, runParseTable, runParseTable]
      simp only [ih]
    | give p q | stage p q | flush p | sync p | sleep n =>
      rw [List.filter_cons_of_neg (by simp [Section.ofLife]), ih, runParseTable]
      rfl

theorem runParseTable_append (s : LaborerList) (secs rest : List Section) :
    s.runParseTable f (secs ++ rest) =
      if (s.runParseTable f secs).2 then (s.runParseTable f secs).1.runParseTable f rest
      else s.runParseTable f secs := by
  induction secs generalizing s with
  | nil => rfl
  | cons sec secs ih =>
    rw [List.cons_append, runParseTable, runParseTable]
    by_cases hdone : (s.act f sec).2
    · simp only [hdone, if_true, ih]
    · simp [hdone]

section Clean

theorem runLaborer_creates {p : Process} (h : f.creates p) :
    s.runLaborer f p = (⟨s.mLaborer.orderedInsert (· ≤ ·) p,
      s.events ++ [(p, .new), (p, .start)]⟩, true) := by
  simp only [Failures.creates, Bool.and_eq_true, Bool.not_eq_eq_eq_not, Bool.not_true] at h
  obtain ⟨⟨⟨⟨hnew, hinit⟩, hstart⟩, hlock⟩, hunlock⟩ := h
  simp [runLaborer, hnew, hinit, hstart, hlock, hunlock, log]

/-- All laborers are created. -/
theorem runParseTable_created {ps : List Process} (h : ∀ p ∈ ps, f.creates p) :
    s.runParseTable f (ps.map .runLaborer) = (⟨insertAll s.mLaborer ps,
      s.events ++ ps.flatMap fun p => [(p, .new), (p, .start)]⟩, true) := by
  induction ps generalizing s with
  | nil => simp [runParseTable, insertAll]
  | cons p ps ih =>
    have hp := List.forall_mem_cons.mp h
    have hact : s.act f (.runLaborer p) = _ := runLaborer_creates hp.1
    rw [List.map_cons, runParseTable, hact]
    simp [ih hp.2, insertAll]

/-- All threads are ended and joined. -/
theorem runParseTable_joined {ps : List Process} (h : ∀ p ∈ ps, f.join p = false) :
    s.runParseTable f (ps.flatMap fun p => [.endLaborer p, .join p]) =
      ({ s with events := s.events ++ ps.flatMap fun p => [(p, .mEnd), (p, .join)] }, true) := by
  induction ps generalizing s with
  | nil => simp [runParseTable]
  | cons p ps ih =>
    have hp := List.forall_mem_cons.mp h
    simp [runParseTable, act, hp.1, ih hp.2, log]

/-- All laborers are destroyed. -/
theorem destroyAll_destroyed {ps : List Process} (h : ∀ p ∈ ps, f.destroy p = false) :
    (s.destroyAll f ps).events =
      s.events ++ ps.flatMap fun p => [(p, .destroy), (p, .delete)] := by
  induction ps generalizing s with
  | nil => simp [destroyAll]
  | cons p ps ih =>
    have hp := List.forall_mem_cons.mp h
    simp [destroyAll, hp.1, ih hp.2, log]

end Clean

section Walk

/-- What holds behind every section. -/
structure Walking (f : Failures) (s : LaborerList) : Prop where
  undestroyed : ∀ p, (p, .destroy) ∉ s.events ∧ (p, .delete) ∉ s.events
  started : ∀ p ∈ s.mLaborer, (p, .start) ∈ s.events
  joined : ∀ p, (p, .join) ∈ s.events → f.join p = false

theorem Walking.log (h : Walking f s) {p : Process} {es : List LifeEvent}
    (hes : ∀ e ∈ es, e ≠ .destroy ∧ e ≠ .delete) (hjoin : .join ∈ es → f.join p = false) :
    Walking f (s.log p es) where
  undestroyed q := by
    have hold := h.undestroyed q
    constructor <;> intro hmem <;> rcases List.mem_append.mp hmem with hmem | hmem
    · exact hold.1 hmem
    · obtain ⟨e, he, heq⟩ := List.mem_map.mp hmem
      exact (hes e he).1 (Prod.mk.inj heq).2
    · exact hold.2 hmem
    · obtain ⟨e, he, heq⟩ := List.mem_map.mp hmem
      exact (hes e he).2 (Prod.mk.inj heq).2
  started q hq := List.mem_append_left _ (h.started q hq)
  joined q hmem := by
    rcases List.mem_append.mp hmem with hmem | hmem
    · exact h.joined q hmem
    · obtain ⟨e, he, heq⟩ := List.mem_map.mp hmem
      obtain ⟨rfl, rfl⟩ := Prod.mk.inj heq
      exact hjoin he

theorem Walking.act (h : Walking f s) (sec : Section) : Walking f (s.act f sec).1 := by
  have hnew : ∀ p, Walking f (s.log p [.new]) := fun p => h.log (by simp) (by simp)
  have hstart : ∀ p, Walking f (s.log p [.new, .start]) := fun p => h.log (by simp) (by simp)
  cases sec with
  | runLaborer p =>
    show Walking f (s.runLaborer f p).1
    unfold runLaborer
    split
    · exact h
    split
    · exact hnew p
    split
    · exact hnew p
    split
    · exact hstart p
    · refine ⟨(hstart p).undestroyed, fun q hq => ?_, (hstart p).joined⟩
      rcases (List.mem_orderedInsert _).mp hq with rfl | hq
      · simp [LaborerList.log]
      · exact (hstart p).started q hq
  | endLaborer p => exact h.log (by simp) (by simp)
  | join p =>
    show Walking f (if f.join p then (s, false) else (s.log p [.join], true)).1
    split
    · exact h
    · rename_i hjoin
      exact h.log (by simp) fun _ => by simpa using hjoin
  | give p q | stage p q | flush p | sync p | sleep n => exact h

theorem Walking.runParseTable (h : Walking f s) (secs : List Section) :
    Walking f (s.runParseTable f secs).1 := by
  induction secs generalizing s with
  | nil => exact h
  | cons sec secs ih =>
    rw [LaborerList.runParseTable]
    by_cases hdone : (s.act f sec).2
    · simp only [hdone, if_true]
      exact ih (h.act sec)
    · simp only [hdone]
      exact h.act sec

/-- What the loop of `endLaborer` adds. -/
theorem events_destroyAll (s : LaborerList) (ps : List Process) :
    ∃ tail, (s.destroyAll f ps).events = s.events ++ tail ∧ ∀ e ∈ tail,
      e.1 ∈ ps ∧ (e.2 = .destroy ∨ e.2 = .delete ∧ f.destroy e.1 = false) := by
  induction ps generalizing s with
  | nil => exact ⟨[], by simp [destroyAll]⟩
  | cons p ps ih =>
    rw [destroyAll]
    split
    · exact ⟨[(p, .destroy)], rfl, by simp⟩
    · rename_i hdestroy
      obtain ⟨tail, htail, hall⟩ := ih (s.log p [.destroy, .delete])
      refine ⟨(p, .destroy) :: (p, .delete) :: tail, htail.trans (by simp [LaborerList.log]), ?_⟩
      have hrest : ∀ e ∈ tail, e.1 ∈ p :: ps ∧
          (e.2 = .destroy ∨ e.2 = .delete ∧ f.destroy e.1 = false) :=
        fun e he => ⟨List.mem_cons_of_mem p (hall e he).1, (hall e he).2⟩
      simpa [hdestroy] using hrest

/-- A run that keeps the promise has joined and destroyed every laborer there is. -/
theorem joined_of_livedWell {quits : Process → Prop} (h : Walking f s)
    (hwell : LivedWell quits (s.endLaborer f).events) {p : Process} (hnew : (p, .new) ∈ s.events) :
    (p, .join) ∈ s.events ∧ f.destroy p = false ∧ f.endLock = false := by
  by_cases hlock : f.endLock
  · rw [endLaborer, if_pos hlock] at hwell
    have hcount := (hwell.once p hnew).1
    rw [List.count_eq_zero_of_not_mem (h.undestroyed p).1] at hcount
    cases hcount
  obtain ⟨tail, htail, hall⟩ := events_destroyAll (f := f) s s.mLaborer
  rw [endLaborer, if_neg hlock, htail] at hwell
  have hold := h.undestroyed p
  have honce := hwell.once p (List.mem_append_left _ hnew)
  have hlast : ∀ e, (p, e) ∉ s.events → (s.events ++ tail).count (p, e) = 1 → (p, e) ∈ tail := by
    intro e he hcount
    have hmem : (p, e) ∈ s.events ++ tail := List.count_pos_iff.mp (by omega)
    exact (List.mem_append.mp hmem).resolve_left he
  have hdestroy := hlast .destroy hold.1 honce.1
  have hdelete := hlast .delete hold.2 honce.2
  have hstart := h.started p (hall _ hdestroy).1
  obtain ⟨before, after, hsplit⟩ := List.append_of_mem (List.mem_append_right s.events hdestroy)
  have hjoin := (hwell.joined p before after hsplit (List.mem_append_left _ hstart)).2
  refine ⟨?_, ?_, by simpa using hlock⟩
  · have hmem : (p, .join) ∈ s.events ++ tail := hsplit ▸ List.mem_append_left _ hjoin
    rcases List.mem_append.mp hmem with hmem | hmem
    · exact hmem
    · simpa using (hall _ hmem).2
  · simpa using (hall _ hdelete).2

end Walk

section Created

theorem events_act (s : LaborerList) (sec : Section) : ∀ e ∈ s.events, e ∈ (s.act f sec).1.events := by
  intro e he
  have hlog : ∀ p es, e ∈ (s.log p es).events := fun p es => List.mem_append_left _ he
  cases sec with
  | runLaborer p =>
    show e ∈ (s.runLaborer f p).1.events
    unfold runLaborer
    split_ifs <;> first | exact he | exact hlog p _
  | endLaborer p => exact hlog p _
  | join p =>
    show e ∈ (if f.join p then (s, false) else (s.log p [.join], true)).1.events
    split_ifs <;> first | exact he | exact hlog p _
  | give p q | stage p q | flush p | sync p | sleep n => exact he

theorem events_runParseTable (s : LaborerList) (secs : List Section) :
    ∀ e ∈ s.events, e ∈ (s.runParseTable f secs).1.events := by
  induction secs generalizing s with
  | nil => exact fun e he => he
  | cons sec secs ih =>
    intro e he
    rw [runParseTable]
    by_cases hdone : (s.act f sec).2
    · simp only [hdone, if_true]
      exact ih _ e (events_act s sec e he)
    · simp only [hdone]
      exact events_act s sec e he

/-- The creation of the laborers joins none of them. -/
theorem not_joined_of_created (ps : List Process) (h : ∀ p, (p, .join) ∉ s.events) :
    ∀ p, (p, .join) ∉ (s.runParseTable f (ps.map .runLaborer)).1.events := by
  induction ps generalizing s with
  | nil => exact h
  | cons q ps ih =>
    have hact : ∀ p, (p, .join) ∉ (s.act f (.runLaborer q)).1.events := by
      intro p
      have hlog : ∀ es, .join ∉ es → (p, .join) ∉ (s.log q es).events := by
        intro es hes hmem
        rcases List.mem_append.mp hmem with hmem | hmem
        · exact h p hmem
        · obtain ⟨e, he, heq⟩ := List.mem_map.mp hmem
          exact hes ((Prod.mk.inj heq).2 ▸ he)
      show (p, .join) ∉ (s.runLaborer f q).1.events
      unfold runLaborer
      split_ifs <;> first | exact h p | exact hlog _ (by simp)
    rw [List.map_cons, runParseTable]
    by_cases hdone : (s.act f (.runLaborer q)).2
    · simp only [hdone, if_true]
      exact ih hact
    · simp only [hdone]
      exact hact

theorem creates_of_runLaborer {p : Process} (h : (s.runLaborer f p).2) : f.creates p := by
  unfold runLaborer at h
  split_ifs at h with hnew hinit hstart hlock
  simpa [Failures.creates, hnew, hinit, hstart, hlock] using h

theorem creates_of_runParseTable {ps : List Process}
    (h : (s.runParseTable f (ps.map .runLaborer)).2) : ∀ p ∈ ps, f.creates p := by
  induction ps generalizing s with
  | nil => exact fun p hp => absurd hp List.not_mem_nil
  | cons q ps ih =>
    rw [List.map_cons, runParseTable] at h
    by_cases hdone : (s.act f (.runLaborer q)).2
    · simp only [hdone, if_true] at h
      exact List.forall_mem_cons.mpr ⟨creates_of_runLaborer hdone, ih h⟩
    · exact absurd h (by simp [hdone])

end Created

end LaborerList

section Main

variable {quits : Process → Prop}

private theorem exists_append_of_notMem {α : Type*} {as ds before after : List α} {x : α}
    (h : as ++ ds = before ++ x :: after) (hx : x ∉ as) : ∃ t, before = as ++ t := by
  rcases List.append_eq_append_iff.mp h with ⟨t, ht, _⟩ | ⟨t, ht, hd⟩
  · exact ⟨t, ht⟩
  · cases t with
    | nil => exact ⟨[], by simpa using ht.symm⟩
    | cons y t =>
      rw [List.cons_append, List.cons.injEq] at hd
      exact absurd (by rw [ht, hd.1]; simp) hx

/-- Two events for each process. -/
private def pairs (a b : LifeEvent) (ps : List Process) : List (Process × LifeEvent) :=
  ps.flatMap fun p => [(p, a), (p, b)]

private theorem mem_pairs {a b e : LifeEvent} {ps : List Process} {p : Process} :
    (p, e) ∈ pairs a b ps ↔ p ∈ ps ∧ (e = a ∨ e = b) := by
  simp only [pairs, List.mem_flatMap, List.mem_pair, Prod.mk.injEq]
  constructor
  · rintro ⟨q, hq, ⟨rfl, he⟩ | ⟨rfl, he⟩⟩
    · exact ⟨hq, .inl he⟩
    · exact ⟨hq, .inr he⟩
  · rintro ⟨hp, he⟩
    exact ⟨p, hp, he.imp (⟨rfl, ·⟩) (⟨rfl, ·⟩)⟩

private theorem count_pairs {a b : LifeEvent} (hne : a ≠ b) (ps : List Process) (p : Process) :
    (pairs a b ps).count (p, a) = ps.count p ∧ (pairs a b ps).count (p, b) = ps.count p := by
  induction ps with
  | nil => exact ⟨rfl, rfl⟩
  | cons q ps ih =>
    have hcons : pairs a b (q :: ps) = (q, a) :: (q, b) :: pairs a b ps := rfl
    rw [hcons]
    by_cases hq : q = p
    · subst q
      simp [ih, hne, Ne.symm hne]
    · simp [ih, hq]

/-- Every laborer is created, ended, joined and destroyed. -/
private theorem livedWell_clean {ps ls : List Process} (hperm : ls.Perm ps) (hn : ps.Nodup) :
    LivedWell quits
      (pairs .new .start ps ++ pairs .mEnd .join ls ++ pairs .destroy .delete ls) where
  joined p before after hsplit hstart := by
    have hearly : (p, .destroy) ∉ pairs .new .start ps ++ pairs .mEnd .join ls := by
      simp [mem_pairs]
    obtain ⟨t, rfl⟩ := exists_append_of_notMem hsplit hearly
    have hp : p ∈ ls := by
      simp only [List.mem_append, mem_pairs] at hstart
      simpa [hperm.mem_iff] using hstart
    simp [mem_pairs, hp]
  once p hnew := by
    have hp : p ∈ ls := by
      simp only [List.mem_append, mem_pairs] at hnew
      simpa [hperm.mem_iff] using hnew
    have hone : ls.count p = 1 := List.count_eq_one_of_mem (hperm.nodup_iff.mpr hn) hp
    have hlast : (pairs .destroy .delete ls).count (p, .destroy) = 1 ∧
        (pairs .destroy .delete ls).count (p, .delete) = 1 := by
      rw [(count_pairs (by decide) ls p).1, (count_pairs (by decide) ls p).2]
      exact ⟨hone, hone⟩
    have hearly : ∀ e, e = .destroy ∨ e = .delete →
        (pairs .new .start ps ++ pairs .mEnd .join ls).count (p, e) = 0 := by
      rintro e (rfl | rfl) <;> exact List.count_eq_zero_of_not_mem (by simp [mem_pairs])
    constructor
    · rw [List.count_append, hearly _ (.inl rfl), hlast.1]
    · rw [List.count_append, hearly _ (.inr rfl), hlast.2]
  returned p hstart := by
    simp only [List.mem_append, mem_pairs] at hstart
    have hp : p ∈ ls := by simpa [hperm.mem_iff] using hstart
    exact .inl (by simp [mem_pairs, hp])

private theorem livedWell_nil : LivedWell quits [] where
  joined p before after hsplit := by simp at hsplit
  once p hnew := absurd hnew List.not_mem_nil
  returned p hstart := absurd hstart List.not_mem_nil

section Walked

variable {f : Failures} {ps ls : List Process}

/-- The sections of a script that concern the laborers. -/
private def lifeSections (ps ls : List Process) : List Section :=
  ps.map .runLaborer ++ ls.flatMap fun p => [.endLaborer p, .join p]

/-- Nothing fails. -/
private theorem livedWell_of_clean (hperm : ls.Perm ps) (hn : ps.Nodup)
    (hls : insertAll [] ps = ls) (hclean : f.Clean ps) :
    LivedWell quits
      ((LaborerList.runParseTable f ⟨[], []⟩ (lifeSections ps ls)).1.endLaborer f).events := by
  have hjoin : ∀ p ∈ ls, f.join p = false := fun p hp => hclean.join p (hperm.mem_iff.mp hp)
  have hdestroy : ∀ p ∈ ls, f.destroy p = false :=
    fun p hp => hclean.destroy p (hperm.mem_iff.mp hp)
  rw [lifeSections, LaborerList.runParseTable_append,
    LaborerList.runParseTable_created hclean.creates, if_pos rfl,
    LaborerList.runParseTable_joined hjoin, LaborerList.endLaborer, hclean.endLock]
  simp only [Bool.false_eq_true, if_false, hls]
  rw [LaborerList.destroyAll_destroyed hdestroy]
  exact livedWell_clean hperm hn

/-- A promise that is kept although the first laborer was created. -/
private theorem clean_of_livedWell (hhead : ps.head? = some p0) (hnew : f.new p0 = false)
    (hwell : LivedWell quits
      ((LaborerList.runParseTable f ⟨[], []⟩ (lifeSections ps ls)).1.endLaborer f).events) :
    f.Clean ps := by
  set created := LaborerList.runParseTable f ⟨[], []⟩ (ps.map .runLaborer) with hcreated
  set s := (LaborerList.runParseTable f ⟨[], []⟩ (lifeSections ps ls)).1 with hs
  have hwalking : LaborerList.Walking f s :=
    LaborerList.Walking.runParseTable ⟨by simp, by simp, by simp⟩ _
  have hevents : ∀ e ∈ created.1.events, e ∈ s.events := by
    intro e he
    rw [hs, lifeSections, LaborerList.runParseTable_append, ← hcreated]
    split
    · exact LaborerList.events_runParseTable _ _ e he
    · exact he
  have hfirst : (p0, .new) ∈ created.1.events := by
    obtain ⟨rest, rfl⟩ := List.head?_eq_some_iff.mp hhead
    have hact : (p0, .new) ∈ (LaborerList.act f ⟨[], []⟩ (.runLaborer p0)).1.events := by
      show (p0, .new) ∈ (LaborerList.runLaborer f ⟨[], []⟩ p0).1.events
      unfold LaborerList.runLaborer
      rw [if_neg (by simp [hnew])]
      split_ifs <;> simp [LaborerList.log]
    rw [hcreated, List.map_cons, LaborerList.runParseTable]
    by_cases hdone : (LaborerList.act f ⟨[], []⟩ (.runLaborer p0)).2
    · simp only [hdone, if_true]
      exact LaborerList.events_runParseTable _ _ _ hact
    · simp only [hdone]
      exact hact
  have hjoined := LaborerList.joined_of_livedWell hwalking hwell (hevents _ hfirst)
  have hok : created.2 := by
    by_contra hfailed
    have hsame : s = created.1 := by
      rw [hs, lifeSections, LaborerList.runParseTable_append, ← hcreated, if_neg hfailed]
    exact LaborerList.not_joined_of_created ps (by simp) p0 (hcreated ▸ hsame ▸ hjoined.1)
  have hcreates := LaborerList.creates_of_runParseTable hok
  have hall : ∀ p ∈ ps, f.join p = false ∧ f.destroy p = false := by
    intro p hp
    have hpnew : (p, .new) ∈ created.1.events := by
      rw [hcreated, LaborerList.runParseTable_created hcreates]
      simp only [List.nil_append, List.mem_flatMap]
      exact ⟨p, hp, by simp⟩
    have hpjoined := LaborerList.joined_of_livedWell hwalking hwell (hevents _ hpnew)
    exact ⟨hwalking.joined p hpjoined.1, hpjoined.2.1⟩
  exact ⟨hcreates, fun p hp => (hall p hp).1, hjoined.2.2, fun p hp => (hall p hp).2⟩

/-- The first laborer is not even created. -/
private theorem livedWell_of_new (hhead : ps.head? = some p0) (hnew : f.new p0) :
    LivedWell quits
      ((LaborerList.runParseTable f ⟨[], []⟩ (lifeSections ps ls)).1.endLaborer f).events := by
  obtain ⟨rest, rfl⟩ := List.head?_eq_some_iff.mp hhead
  have hact : LaborerList.act f ⟨[], []⟩ (.runLaborer p0) = (⟨[], []⟩, false) := if_pos hnew
  rw [lifeSections, List.map_cons, List.cons_append, LaborerList.runParseTable, hact]
  simp only [Bool.false_eq_true, if_false, LaborerList.endLaborer]
  split <;> exact livedWell_nil

end Walked

/-- The laborers of a run live well if and only if no call fails behind the creation of the first
one. -/
theorem laborers_livedWell_iff (ctx : Context) (table : PsTable) (f : Failures)
    (quits : Process → Prop) :
    LivedWell quits (LaborerList.run f (runParseTable ctx table)).events ↔
      f.Harmless table.processes := by
  set ps := created [] table.nodeList with hps
  have hmem : ∀ p, p ∈ ps ↔ p ∈ table.processes := by simp [hps, mem_created, PsTable.processes]
  have hperm : (insertAll [] ps).Perm ps := by simpa using perm_insertAll [] ps
  have hn : ps.Nodup := nodup_created [] table.nodeList
  have hhead : ps.head? = some p0 := by simp [hps, PsTable.nodeList, created]
  rw [LaborerList.run, Failures.Harmless]
  by_cases hbefore : f.parseOption ∨ f.load
  · rw [if_pos (by simpa using hbefore)]
    exact iff_of_true livedWell_nil (by tauto)
  rw [if_neg (by simpa using hbefore), LaborerList.runReal]
  by_cases hparse : f.parse
  · rw [if_pos hparse]
    exact iff_of_true (by unfold LaborerList.endLaborer; split <;> exact livedWell_nil) (by tauto)
  rw [if_neg hparse, ← LaborerList.runParseTable_filter, life_runParseTable, ← hps]
  by_cases hnew : f.new p0
  · exact iff_of_true (livedWell_of_new hhead hnew) (by tauto)
  have hnew : f.new p0 = false := by simpa using hnew
  have hcleanIff : f.Clean ps ↔ f.Clean table.processes := by
    constructor <;> intro h
    · exact ⟨fun p hp => h.creates p ((hmem p).mpr hp), fun p hp => h.join p ((hmem p).mpr hp),
        h.endLock, fun p hp => h.destroy p ((hmem p).mpr hp)⟩
    · exact ⟨fun p hp => h.creates p ((hmem p).mp hp), fun p hp => h.join p ((hmem p).mp hp),
        h.endLock, fun p hp => h.destroy p ((hmem p).mp hp)⟩
  constructor
  · intro hwell
    exact .inr (.inr (.inr (.inr (hcleanIff.mp (clean_of_livedWell hhead hnew hwell)))))
  · intro h
    have hclean : f.Clean table.processes := by simpa [hparse, hnew, not_or.mp hbefore] using h
    exact livedWell_of_clean hperm hn rfl (hcleanIff.mpr hclean)

end Main

section Examples

/-- Two processes, and the thread of the second one cannot be started. -/
def secondFails : Failures :=
  ⟨false, false, false, fun _ => false, fun _ => false, (· = "P1".toList), fun _ => false,
    fun _ => false, fun _ => false, false, fun _ => false⟩

/-- The laborer of `P0` is destroyed while its thread waits for commands. -/
theorem started_failure_destroys :
    ¬ ∀ (ctx : Context) (table : PsTable) (f : Failures),
      LivedWell (fun _ => False) (LaborerList.run f (runParseTable ctx table)).events := by
  intro h
  have hwell := h ⟨.ascii, .normal, id, fun _ => none, []⟩ ⟨[], [⟨.normal, "P1".toList, []⟩]⟩
    secondFails
  have hevents : (LaborerList.run secondFails (runParseTable ⟨.ascii, .normal, id, fun _ => none, []⟩
      ⟨[], [⟨.normal, "P1".toList, []⟩]⟩)).events =
      [(p0, .new), (p0, .start), ("P1".toList, .new)] ++ (p0, .destroy) :: [(p0, .delete)] := by
    decide
  rw [hevents] at hwell
  have hjoined := (hwell.joined p0 _ _ rfl (by decide)).2
  revert hjoined
  decide

end Examples

end Natc.Ats
