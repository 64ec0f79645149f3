import Natc.Ats.RsystemEnv

/-!
# Setting a variable

`SET_ENV` takes a name and a value from the rest of its line. The laborer splits them at the first
blank and writes them into the parameters of a server, which are the environment of its commands.
-/

namespace Natc.Ats.SetEnv

open Lib

def BUFFER_SIZE : Nat := 65536

/-- The words of a text, as the framework counts them. -/
structure StafWords where
  staf : Staf
  subWord_eq : ∀ s i, staf.subWord s i = dropWordsWith staf.white i s
  word_eq : ∀ s i,
    staf.word s i = (dropWordsWith staf.white i s).takeWhile fun c => !staf.white c

/-- A key of the parameters. It was a word of some text. -/
@[ext] structure Key where
  text : Text
  noBlank : ' ' ∉ text

theorem StafWords.noBlank (w : StafWords) (s : Text) (i : Nat) : ' ' ∉ w.staf.word s i := by
  intro hmem
  rw [w.word_eq] at hmem
  have hwhite := List.mem_takeWhile_imp hmem
  rw [w.staf.white_blank] at hwhite
  cases hwhite

def StafWords.key (w : StafWords) (s : Text) (i : Nat) : Key := ⟨w.staf.word s i, w.noBlank s i⟩

/-- `operator <` of the framework's strings. -/
def lessThan : Text → Text → Bool
  | _, [] => false
  | [], _ :: _ => true
  | c :: cs, d :: ds => c.toNat < d.toNat || (c.toNat = d.toNat && lessThan cs ds)

/-- The parameters of a server, in the order of the map. -/
structure Params where
  entries : List (Text × Text)
  noBlank : ∀ entry ∈ entries, ' ' ∉ entry.1

namespace Params

variable (params : Params)

def valueOf (key : Text) : List (Text × Text) → Option Text
  | [] => none
  | entry :: entries => if entry.1 = key then some entry.2 else valueOf key entries

def find (key : Text) : Option Text := valueOf key params.entries

/-- The entries with a value written for a key. -/
def setEntries (entries : List (Text × Text)) (key value : Text) : List (Text × Text) :=
  if (entries.any fun entry => entry.1 = key) = true then
    entries.map fun entry => if entry.1 = key then (key, value) else entry
  else
    (entries.takeWhile fun entry => lessThan entry.1 key) ++
      (key, value) :: entries.dropWhile fun entry => lessThan entry.1 key

theorem mem_setEntries {entries : List (Text × Text)} {key value : Text} {entry : Text × Text}
    (h : entry ∈ setEntries entries key value) : entry = (key, value) ∨ entry ∈ entries := by
  unfold setEntries at h
  split at h
  · obtain ⟨old, hmem, rfl⟩ := List.mem_map.mp h
    split
    · exact Or.inl rfl
    · exact Or.inr hmem
  · rcases List.mem_append.mp h with h | h
    · exact Or.inr (List.takeWhile_sublist _ |>.mem h)
    · rcases List.mem_cons.mp h with h | h
      · exact Or.inl h
      · exact Or.inr (List.dropWhile_sublist _ |>.mem h)

def set (key : Key) (value : Text) : Params where
  entries := setEntries params.entries key.text value
  noBlank := by
    intro entry h
    rcases mem_setEntries h with rfl | h
    · exact key.noBlank
    · exact params.noBlank entry h

def erase (key : Text) : Params where
  entries := params.entries.filter fun entry => entry.1 ≠ key
  noBlank := fun entry h => params.noBlank entry (List.mem_of_mem_filter h)

end Params

structure Servicer where
  mServerMap : Text → Params
  mServerAlias : Text → Text
  mEnvCASE : Text
  mEnvHOME : Text

/-- The parameters of one server are replaced. -/
def Servicer.withParams (s : Servicer) (aAlias : Text) (params : Params) : Servicer :=
  { s with mServerMap := fun other => if other = aAlias then params else s.mServerMap other }

def portNo : Key := ⟨"ALTIBASE_PORT_NO".toList, by decide⟩

section Laborer

variable (w : StafWords) (env : ServiceEnv)

def Servicer.rmEnv (s : Servicer) (aKey : Key) (aAlias : Text) : Servicer :=
  s.withParams aAlias ((s.mServerMap aAlias).erase aKey.text)

/-- `(*sServer)[ "ALTIBASE_PORT_NO" ]` makes the entry where there is none. -/
def Servicer.addEnv (s : Servicer) (aKey : Key) (aEnv aAlias : Text) : Servicer :=
  let sSpace := List.replicate (65536 - 1) ' '
  let sServer := s.mServerMap aAlias
  let isPort := w.staf.contains (aEnv ++ sSpace) "%SHM_DB_KEY".toList
  let port := (sServer.find portNo.text).getD []
  let sServer := if isPort = true ∧ sServer.find portNo.text = none then sServer.set portNo []
    else sServer
  let sEnv := if isPort = true then getPort w.staf env port else aEnv ++ sSpace
  let sEnv := if w.staf.contains sEnv "$ATC_HOME".toList = true then
      w.staf.replace sEnv "$ATC_HOME".toList s.mEnvCASE
    else sEnv
  let sEnv := if w.staf.contains sEnv "$ALTIBASE_HOME".toList = true then
      w.staf.replace sEnv "$ALTIBASE_HOME".toList s.mEnvHOME
    else sEnv
  let sEnv := sServer.entries.foldl
    (fun sEnv entry => w.staf.replace sEnv ('$' :: entry.1) entry.2) sEnv
  s.withParams aAlias (sServer.set aKey (w.staf.strip sEnv))

/-- The command `ENV_COM`. -/
def Servicer.envCom (s : Servicer) (query : Text) : Servicer :=
  let sEnv := w.staf.replace query ['='] [' ']
  let sEnv1 := w.key sEnv 0
  let sEnv2 := w.key sEnv 1
  if sEnv1.text.take 1 = ['@'] then
    if (w.staf.strip (w.staf.subWord sEnv 2)).length ≠ 0 then
      s.addEnv w env sEnv2 (w.staf.subWord sEnv 2) (s.mServerAlias (sEnv1.text.drop 1))
    else s.rmEnv sEnv2 (s.mServerAlias (sEnv1.text.drop 1))
  else if (w.staf.strip (w.staf.subWord sEnv 1)).length ≠ 0 then
    s.addEnv w env sEnv1 (w.staf.subWord sEnv 1) "DEFAULT".toList
  else s.rmEnv sEnv1 "DEFAULT".toList

/-- `sData` of the parser: the rest of the line without the blanks around it and a semicolon behind
it. The rest has to fit, and has to have something besides blanks. -/
def key1 (rest : Text) : Option Text :=
  if BUFFER_SIZE ≤ rest.length then none
  else
    let sData := stripWith (· = ' ') (rest.takeWhile (· ≠ '\x00'))
    sData.getLast?.map fun c => if c = ';' then sData.dropLast else sData

/-- `SET_ENV` with the rest of its line, as the laborer executes it in the end. -/
def Servicer.setEnv (s : Servicer) (rest : Text) : Option Servicer :=
  (key1 rest).map (s.envCom w env)

end Laborer

/-! ## Names and values -/

structure Name (staf : Staf) where
  text : Text
  ne : text ≠ []
  clean : ∀ c ∈ text, staf.white c = false ∧ c ≠ '=' ∧ c ≠ '\x00'
  first : text.head? ≠ some '@'

structure Value where
  text : Text
  clean : ∀ c ∈ text, c ≠ '\n' ∧ c ≠ '\x00'

/-- ` K=V;` -/
def assignment {staf : Staf} (name : Name staf) (value : Value) : Text :=
  ' ' :: (name.text ++ '=' :: (value.text ++ [';']))

/-- The variable references that are replaced. -/
def references (s : Servicer) : List Text :=
  "%SHM_DB_KEY".toList :: "$ATC_HOME".toList :: "$ALTIBASE_HOME".toList ::
    (s.mServerMap "DEFAULT".toList).entries.map fun entry => '$' :: entry.1

def NoReference (s : Servicer) (text : Text) : Prop := ∀ p ∈ references s, ¬p <:+: text

/-- The variables of the process: those of the default server. -/
def Servicer.variable (s : Servicer) (name : Text) : Option Text :=
  (s.mServerMap "DEFAULT".toList).find name

/-! ## Reading and writing the parameters -/

namespace Params

variable {key : Text} {entries : List (Text × Text)}

theorem valueOf_append (key : Text) (front back : List (Text × Text)) :
    valueOf key (front ++ back) = (valueOf key front).or (valueOf key back) := by
  induction front with
  | nil => rfl
  | cons entry front ih =>
    rw [List.cons_append, valueOf, valueOf]
    by_cases hkey : entry.1 = key
    · rw [if_pos hkey, if_pos hkey, Option.some_or]
    · rw [if_neg hkey, if_neg hkey, ih]

theorem valueOf_eq_none (h : ∀ entry ∈ entries, entry.1 ≠ key) : valueOf key entries = none := by
  induction entries with
  | nil => rfl
  | cons entry entries ih =>
    rw [valueOf, if_neg (h entry List.mem_cons_self)]
    exact ih fun other hmem => h other (List.mem_cons_of_mem _ hmem)

theorem valueOf_map_self {value : Text} (h : (entries.any fun entry => entry.1 = key) = true) :
    valueOf key (entries.map fun entry => if entry.1 = key then (key, value) else entry) =
      some value := by
  induction entries with
  | nil => cases h
  | cons entry entries ih =>
    rw [List.map_cons, valueOf]
    by_cases hkey : entry.1 = key
    · rw [if_pos hkey, if_pos rfl]
    · rw [List.any_cons, decide_eq_false hkey, Bool.false_or] at h
      rw [if_neg hkey, if_neg hkey, ih h]

theorem valueOf_map_of_ne {value name : Text} (h : name ≠ key) :
    valueOf name (entries.map fun entry => if entry.1 = key then (key, value) else entry) =
      valueOf name entries := by
  induction entries with
  | nil => rfl
  | cons entry entries ih =>
    rw [List.map_cons, valueOf, valueOf, ih]
    by_cases hkey : entry.1 = key
    · have hother : entry.1 ≠ name := fun heq => h (heq.symm.trans hkey)
      rw [if_pos hkey, if_neg (Ne.symm h), if_neg hother]
    · rw [if_neg hkey]

theorem find_set (params : Params) (key : Key) (value name : Text) :
    (params.set key value).find name =
      if name = key.text then some value else params.find name := by
  show valueOf name (setEntries params.entries key.text value) = _
  unfold setEntries
  by_cases hany : (params.entries.any fun entry => entry.1 = key.text) = true
  · rw [if_pos hany]
    by_cases hname : name = key.text
    · rw [if_pos hname, hname, valueOf_map_self hany]
    · rw [if_neg hname, valueOf_map_of_ne hname, find]
  · have habsent : ∀ entry ∈ params.entries, entry.1 ≠ key.text := by
      intro entry hmem hkey
      exact hany (List.any_eq_true.mpr ⟨entry, hmem, decide_eq_true hkey⟩)
    rw [if_neg hany, valueOf_append, valueOf]
    by_cases hname : name = key.text
    · rw [if_pos hname, if_pos hname.symm, hname, valueOf_eq_none, Option.none_or]
      intro entry hmem
      exact habsent entry ((List.takeWhile_sublist _).mem hmem)
    · rw [if_neg hname, if_neg (Ne.symm hname), ← valueOf_append,
        List.takeWhile_append_dropWhile, find]

theorem find_erase (params : Params) (key name : Text) :
    (params.erase key).find name = if name = key then none else params.find name := by
  show valueOf name (params.entries.filter fun entry => entry.1 ≠ key) = _
  by_cases hname : name = key
  · rw [if_pos hname, hname]
    apply valueOf_eq_none
    intro entry hmem
    exact of_decide_eq_true (List.mem_filter.mp hmem).2
  · rw [if_neg hname, find]
    induction params.entries with
    | nil => rfl
    | cons entry entries ih =>
      by_cases hkey : entry.1 = key
      · have hother : entry.1 ≠ name := fun heq => hname (heq.symm.trans hkey)
        rw [List.filter_cons_of_neg (by simpa using hkey), valueOf, if_neg hother, ih]
      · rw [List.filter_cons_of_pos (by simpa using hkey), valueOf, valueOf, ih]

end Params

/-! ## The assignment -/

variable {w : StafWords} {env : ServiceEnv} {s : Servicer} {name : Name w.staf} {value : Value}

theorem key1_assignment (hfits : (assignment name value).length < BUFFER_SIZE) :
    key1 (assignment name value) = some (name.text ++ '=' :: value.text) := by
  obtain ⟨c, cs, hname⟩ := List.exists_cons_of_ne_nil name.ne
  have hblank : c ≠ ' ' := by
    rintro rfl
    have hwhite := (name.clean ' ' (by rw [hname]; exact List.mem_cons_self)).1
    rw [w.staf.white_blank] at hwhite
    cases hwhite
  have hstring : (assignment name value).takeWhile (· ≠ '\x00') = assignment name value := by
    rw [List.takeWhile_eq_self_iff]
    intro d hd
    apply decide_eq_true
    rw [assignment, List.mem_cons, List.mem_append, List.mem_cons, List.mem_append,
      List.mem_singleton] at hd
    rcases hd with rfl | hd | rfl | hd | rfl
    · decide
    · exact (name.clean d hd).2.2
    · decide
    · exact (value.clean d hd).2
    · decide
  have hstrip : stripWith (· = ' ') (assignment name value) =
      name.text ++ '=' :: value.text ++ [';'] := by
    have hdrop : (assignment name value).dropWhile (· = ' ') =
        name.text ++ '=' :: value.text ++ [';'] := by
      rw [assignment, List.dropWhile_cons_of_pos (by decide), hname, List.cons_append,
        List.dropWhile_cons_of_neg (by simpa using hblank)]
      simp only [List.cons_append, List.append_assoc]
    rw [stripWith, hdrop, List.rdropWhile_concat_neg _ _ _ (by decide)]
  unfold key1
  rw [if_neg (Nat.not_le.mpr hfits), hstring, hstrip]
  show ((name.text ++ '=' :: value.text ++ [';']).getLast?.map fun c => _) = _
  rw [List.getLast?_concat, Option.map_some, if_pos rfl, List.dropLast_concat]

/-- What the laborer does with the text. -/
theorem envCom_assignment (heq : '=' ∉ value.text) :
    ∃ aKey : Key, aKey.text = name.text ∧
      s.envCom w env (name.text ++ '=' :: value.text) =
        if w.staf.strip value.text = [] then s.rmEnv aKey "DEFAULT".toList
        else s.addEnv w env aKey (value.text.dropWhile w.staf.white) "DEFAULT".toList := by
  have hkeep : ∀ t : Text, '=' ∉ t → t.flatMap (fun c => if c = '=' then [' '] else [c]) = t := by
    intro t ht
    induction t with
    | nil => rfl
    | cons c t ih =>
      have hc : c ≠ '=' := fun h => ht (by rw [h]; exact List.mem_cons_self)
      rw [List.flatMap_cons, if_neg hc, ih fun h => ht (List.mem_cons_of_mem _ h)]
      rfl
  have hreplace : w.staf.replace (name.text ++ '=' :: value.text) ['='] [' '] =
      name.text ++ ' ' :: value.text := by
    rw [w.staf.replace_eq _ _ _ (by decide), replaceAll_singleton, List.flatMap_append,
      List.flatMap_cons, if_pos rfl, hkeep _ fun h => (name.clean '=' h).2.1 rfl, hkeep _ heq]
    rfl
  have hword : (w.key (name.text ++ ' ' :: value.text) 0).text = name.text := by
    show w.staf.word _ 0 = _
    rw [w.word_eq, takeWhile_dropWords_zero name.ne (fun c hc => (name.clean c hc).1)
      w.staf.white_blank]
  have hrest : w.staf.subWord (name.text ++ ' ' :: value.text) 1 =
      value.text.dropWhile w.staf.white := by
    rw [w.subWord_eq, dropWords_one name.ne (fun c hc => (name.clean c hc).1) w.staf.white_blank]
  have hfirst : name.text.take 1 ≠ ['@'] := by
    intro h
    obtain ⟨c, cs, hname⟩ := List.exists_cons_of_ne_nil name.ne
    rw [hname] at h
    cases h
    exact name.first (by rw [hname]; rfl)
  refine ⟨w.key (name.text ++ ' ' :: value.text) 0, hword, ?_⟩
  unfold Servicer.envCom
  rw [hreplace]
  simp only [hword, hrest, if_neg hfirst, w.staf.strip_eq, stripWith_dropWhile, ne_eq,
    List.length_eq_zero_iff, ite_not]

/-- Without references only the white space around the value goes. -/
theorem addEnv_of_noReference {aKey : Key} (h : NoReference s value.text) :
    s.addEnv w env aKey (value.text.dropWhile w.staf.white) "DEFAULT".toList =
      s.withParams "DEFAULT".toList
        ((s.mServerMap "DEFAULT".toList).set aKey (w.staf.strip value.text)) := by
  have habsent : ∀ p ∈ references s, p ≠ [] → ' ' ∉ p →
      ¬p <:+: value.text.dropWhile w.staf.white ++ List.replicate (65536 - 1) ' ' := by
    intro p hp hne hblank hoccurs
    rw [infix_append_right_iff hne] at hoccurs
    · exact h p hp (hoccurs.trans (List.dropWhile_suffix _).isInfix)
    · intro c hc
      rwa [List.eq_of_mem_replicate hc]
  have hfalse : ∀ p ∈ references s, p ≠ [] → ' ' ∉ p →
      ¬w.staf.contains (value.text.dropWhile w.staf.white ++ List.replicate (65536 - 1) ' ') p =
        true := by
    intro p hp hne hblank hcontains
    exact habsent p hp hne hblank ((w.staf.contains_iff _ _).mp hcontains)
  have hport := hfalse "%SHM_DB_KEY".toList List.mem_cons_self (by decide) (by decide)
  have hcase := hfalse "$ATC_HOME".toList (List.mem_cons_of_mem _ List.mem_cons_self) (by decide)
    (by decide)
  have hhome := hfalse "$ALTIBASE_HOME".toList
    (List.mem_cons_of_mem _ (List.mem_cons_of_mem _ List.mem_cons_self)) (by decide) (by decide)
  have hloop : ∀ entries : List (Text × Text),
      (∀ entry ∈ entries, entry ∈ (s.mServerMap "DEFAULT".toList).entries) →
      entries.foldl (fun sEnv entry => w.staf.replace sEnv ('$' :: entry.1) entry.2)
          (value.text.dropWhile w.staf.white ++ List.replicate (65536 - 1) ' ') =
        value.text.dropWhile w.staf.white ++ List.replicate (65536 - 1) ' ' := by
    intro entries hentries
    induction entries with
    | nil => rfl
    | cons entry entries ih =>
      have hmem := hentries entry List.mem_cons_self
      have hname : ' ' ∉ '$' :: entry.1 := by
        rw [List.mem_cons, not_or]
        exact ⟨by decide, (s.mServerMap _).noBlank entry hmem⟩
      have hoccurs := habsent ('$' :: entry.1) (by
        iterate 3 apply List.mem_cons_of_mem
        exact List.mem_map.mpr ⟨entry, hmem, rfl⟩) (List.cons_ne_nil _ _) hname
      rw [List.foldl_cons, w.staf.replace_eq _ _ _ (List.cons_ne_nil _ _),
        replaceAll_of_absent _ hoccurs]
      exact ih fun other hother => hentries other (List.mem_cons_of_mem _ hother)
  unfold Servicer.addEnv
  simp only [if_neg hport, if_neg hcase, if_neg hhome]
  rw [if_neg (fun hand => hport hand.1), hloop _ (fun _ hmem => hmem), w.staf.strip_eq,
    w.staf.strip_eq, stripWith_append_replicate w.staf.white_blank, stripWith_dropWhile]

theorem withParams_self (aAlias : Text) (params : Params) :
    (s.withParams aAlias params).mServerMap aAlias = params := if_pos rfl

theorem withParams_of_ne {aAlias other : Text} (h : other ≠ aAlias) (params : Params) :
    (s.withParams aAlias params).mServerMap other = s.mServerMap other := if_neg h

/-- A variable gets its value without white space around it, or is removed if there is no more to
the value; all others are unchanged, those of other servers too. -/
theorem setEnv_assignment (w : StafWords) (env : ServiceEnv) (s : Servicer) (name : Name w.staf)
    (value : Value) (href : NoReference s value.text) (heq : '=' ∉ value.text)
    (hfits : (assignment name value).length < BUFFER_SIZE) :
    ∃ s', s.setEnv w env (assignment name value) = some s' ∧
      (∀ other, s'.variable other = if other = name.text then
        (if w.staf.strip value.text = [] then none else some (w.staf.strip value.text))
        else s.variable other) ∧
      ∀ aAlias ≠ "DEFAULT".toList, s'.mServerMap aAlias = s.mServerMap aAlias := by
  obtain ⟨aKey, hkey, hcom⟩ := @envCom_assignment w env s name value heq
  unfold Servicer.setEnv
  rw [key1_assignment hfits, Option.map_some]
  refine ⟨_, rfl, ?_⟩
  rw [hcom]
  by_cases hstrip : w.staf.strip value.text = []
  · rw [if_pos hstrip]
    constructor
    · intro other
      unfold Servicer.variable Servicer.rmEnv
      rw [withParams_self, Params.find_erase, hkey, if_pos hstrip]
    · intro aAlias halias
      exact withParams_of_ne halias _
  · rw [if_neg hstrip, addEnv_of_noReference href]
    constructor
    · intro other
      unfold Servicer.variable
      rw [withParams_self, Params.find_set, hkey, if_neg hstrip]
    · intro aAlias halias
      exact withParams_of_ne halias _

/-! ## A value that is empty -/

/-- The variable has exactly the value, and the others are unchanged. -/
def Assigned (w : StafWords) (env : ServiceEnv) (s : Servicer) (name : Name w.staf)
    (value : Value) : Prop :=
  ∃ s', s.setEnv w env (assignment name value) = some s' ∧
    s'.variable name.text = some value.text ∧
    ∀ other ≠ name.text, s'.variable other = s.variable other

section Example

def asciiWords : StafWords where
  staf := .ascii
  subWord_eq s i := (dropWordsWith_isWhitespace i s).symm
  word_eq s i := by
    show (dropWords i s).takeWhile _ = (dropWordsWith Char.isWhitespace i s).takeWhile _
    rw [dropWordsWith_isWhitespace]
    rfl

def nameK : Name asciiWords.staf where
  text := ['K']
  ne := List.cons_ne_nil _ _
  clean := List.forall_mem_singleton.mpr (by decide)
  first := by decide

/-- No variable is set. -/
def noVariables : Servicer := ⟨fun _ => ⟨[], List.forall_mem_nil _⟩, fun _ => [], [], []⟩

theorem noReference_noVariables {text : Text} (h : '$' ∉ text ∧ '%' ∉ text) :
    NoReference noVariables text := by
  intro p hp hoccurs
  have hmem : ∀ c ∈ p, c ∈ text := fun c hc => hoccurs.subset hc
  rcases List.mem_cons.mp hp with rfl | hp
  · exact h.2 (hmem '%' (by decide))
  rcases List.mem_cons.mp hp with rfl | hp
  · exact h.1 (hmem '$' (by decide))
  obtain rfl := List.mem_singleton.mp hp
  exact h.1 (hmem '$' (by decide))

def valueOne : Value := ⟨['1'], List.forall_mem_singleton.mpr (by decide)⟩

theorem assigned_one : Assigned asciiWords ⟨[], []⟩ noVariables nameK valueOne := by
  obtain ⟨s', hset, hvariable, _⟩ := setEnv_assignment asciiWords ⟨[], []⟩ noVariables nameK
    valueOne (noReference_noVariables ⟨by decide, by decide⟩) (by decide) (by decide)
  have hstrip : asciiWords.staf.strip valueOne.text = ['1'] := by decide
  refine ⟨s', hset, ?_, ?_⟩
  · rw [hvariable, if_pos rfl, hstrip, if_neg (List.cons_ne_nil _ _)]
    rfl
  · intro other hother
    rw [hvariable, if_neg hother]

/-- `SET_ENV K=;` leaves no variable `K`. -/
theorem not_assigned_empty :
    ¬∀ (w : StafWords) (env : ServiceEnv) (s : Servicer) (name : Name w.staf) (value : Value),
      NoReference s value.text → Assigned w env s name value := by
  intro h
  obtain ⟨s', hset, hvariable, _⟩ := h asciiWords ⟨[], []⟩ noVariables nameK
    ⟨[], List.forall_mem_nil _⟩ (noReference_noVariables ⟨by decide, by decide⟩)
  obtain ⟨aKey, hkey, hcom⟩ := @envCom_assignment asciiWords ⟨[], []⟩ noVariables nameK
    ⟨[], List.forall_mem_nil _⟩ List.not_mem_nil
  rw [if_pos (by decide)] at hcom
  unfold Servicer.setEnv at hset
  rw [key1_assignment (by decide), Option.map_some, hcom] at hset
  cases hset
  unfold Servicer.variable Servicer.rmEnv at hvariable
  rw [withParams_self, Params.find_erase, if_pos hkey.symm] at hvariable
  cases hvariable

end Example

end Natc.Ats.SetEnv
