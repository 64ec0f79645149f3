import Mathlib.Logic.Function.Basic
import Natc.Ats.SetEnv
import Natc.Lib.Machine
import Natc.Lib.Tokens

/-!
# The parameters of the servers

`Servicer::load` takes the servers of `server.conf` from a cache that all cases share, writes the
variables of the service and the properties of `ENV_PROPERTIES` into the server `DEFAULT`, and lets
the other servers inherit from it. The scripts change the parameters of their own `Servicer`.
-/

namespace Natc.Ats.ServerParams

open Lib SetEnv

abbrev ServerMap := Text → Option Params

/-- The words of a text and their number. -/
structure StafCounts extends StafWords where
  numWords : Text → Nat
  numWords_eq : ∀ s, numWords s = (tokens staf.white s).length

/-- What the service reads: the servers of a `server.conf`, and whether the recovery points of a
file can be loaded. -/
structure Disk where
  conf : Text → Option ServerMap
  recPoints : Text → Bool
  /-- A `std::map` has each key once. -/
  nodup : ∀ {path mServerMap}, conf path = some mServerMap → ∀ {server params},
    mServerMap server = some params → (params.entries.map Prod.fst).Nodup

/-- What a case brings. -/
structure Request where
  mIn : Text
  mBEGIN : Text
  mEnvCASE : Text
  mEnvHOME : Text
  mEnvPATH : Text
  mEnvLANG : Text
  mEnvRESULT : Text
  ENV_PROPERTIES : Text
  /-- `mRECDATAFILE` in a regression or sequential test. -/
  mRECDATAFILE : Option Text

def sizeofData1 : Nat := 1024

def Request.serverFile (request : Request) : Text :=
  request.mEnvCASE ++ "/conf/server.conf".toList

def Request.agentFile (request : Request) : Text :=
  request.mEnvCASE ++ "/conf/tagent.conf".toList

structure Caches where
  gServerCache : Text → Option ServerMap
  /-- Where `gRecPointCache` has an entry. -/
  gRecPointCache : Text → Bool

inductive Outcome where
  /-- A path that does not fit `sData1`. -/
  | undefined
  | failure
  | loaded (mServerMap : ServerMap)

/-- The entries with their keys. -/
def items (params : Params) : List (Key × Text) :=
  params.entries.pmap (fun entry h => (⟨entry.1, h⟩, entry.2)) params.noBlank

/-- The inner loop: the look-up in the copy `sServer3` makes the entry where there is none. -/
def inherit (sServer1 own : Params) : Params :=
  ((items sServer1).foldl (fun servers entry =>
      let sServer2 := servers.1
      let sServer3 := servers.2
      let found := (sServer3.find entry.1.text).getD []
      (if found.length = 0 then sServer2.set entry.1 entry.2 else sServer2,
        if sServer3.find entry.1.text = none then sServer3.set entry.1 [] else sServer3))
    (own, own)).1

/-- Each server but `DEFAULT` inherits from it. -/
def inheritAll (sServer1 : Params) (mServerMap : ServerMap) : ServerMap := fun server =>
  if server ≠ "DEFAULT".toList then (mServerMap server).map (inherit sServer1)
  else mServerMap server

theorem noBlank_nil : ∀ entry ∈ ([] : List (Text × Text)), ' ' ∉ entry.1 := List.forall_mem_nil _

def emptyParams : Params := ⟨[], noBlank_nil⟩

section Load

variable (w : StafCounts) (disk : Disk)

/-- `ENV_PROPERTIES` as `getEnv` keeps it. -/
def mEnvAll (request : Request) : Text := w.staf.replace request.ENV_PROPERTIES [';'] [' ']

/-- A word of `mEnvAll`, split where the sign of equality was. -/
def addWord (default : Params) (word : Text) : Params :=
  let sEnv := w.staf.replace word ['='] [' ']
  default.set (w.key sEnv 0) (w.staf.word sEnv 1)

/-- The variables that the service writes into `DEFAULT`. -/
def serviceVariables (request : Request) : List (Key × Text) :=
  [(⟨"ALTIBASE_HOME".toList, by decide⟩, request.mEnvHOME),
    (⟨"PATH".toList, by decide⟩, request.mEnvPATH),
    (⟨"LANG".toList, by decide⟩, request.mEnvLANG),
    (⟨"ATAF_TEST_RESULT".toList, by decide⟩, request.mEnvRESULT),
    (⟨"ATC_HOME".toList, by decide⟩, request.mEnvCASE),
    (⟨"ATC_WORK".toList, by decide⟩, request.mEnvRESULT)]

def withVariables (request : Request) (default : Params) : Params :=
  (serviceVariables request).foldl (fun default entry => default.set entry.1 entry.2) default

def withProperties (request : Request) (default : Params) : Params :=
  (List.range (w.numWords (mEnvAll w request))).foldl
    (fun default a => addWord w default (w.staf.word (mEnvAll w request) a)) default

/-- `load` behind the lock. -/
def resolve (request : Request) (mServerMap : ServerMap) : Outcome :=
  let default := (mServerMap "DEFAULT".toList).getD emptyParams
  let sServer1 := withProperties w request (withVariables request default)
  let mServerMap := Function.update mServerMap "DEFAULT".toList (some sServer1)
  if sizeofData1 ≤ request.agentFile.length then .undefined
  else .loaded (inheritAll sServer1 mServerMap)

def begins (request : Request) : Prop := w.staf.asUInt request.mBEGIN = 1

instance (request : Request) : Decidable (begins w request) :=
  inferInstanceAs (Decidable (_ = _))

/-- The recovery points, and what comes behind. -/
def loadRecPoints (caches : Caches) (request : Request) (mServerMap : ServerMap) :
    Caches × Outcome :=
  match request.mRECDATAFILE with
  | none => (caches, resolve w request mServerMap)
  | some sData1 =>
    if sizeofData1 ≤ sData1.length then (caches, .undefined)
    else if caches.gRecPointCache sData1 = false ∨ begins w request then
      if disk.recPoints sData1 then
        ({ caches with gRecPointCache := Function.update caches.gRecPointCache sData1 true },
          resolve w request mServerMap)
      else (caches, .failure)
    else (caches, resolve w request mServerMap)

/-- `Servicer::load`, as far as the servers are concerned. -/
def load (caches : Caches) (request : Request) : Caches × Outcome :=
  if sizeofData1 ≤ request.mIn.length then (caches, .undefined)
  else
    let sData2 := request.serverFile
    match if begins w request then none else caches.gServerCache sData2 with
    | some mServerMap => loadRecPoints w disk caches request mServerMap
    | none =>
      if sizeofData1 ≤ sData2.length then (caches, .undefined)
      else
        match disk.conf sData2 with
        | none => (caches, .failure)
        | some mServerMap =>
          loadRecPoints w disk
            { caches with
              gServerCache := Function.update caches.gServerCache sData2 (some mServerMap) }
            request mServerMap

end Load

/-! ## Runs of the service -/

/-- The caches and the cases that run, each with its own `Servicer`. -/
structure Service where
  caches : Caches
  running : Nat → Option Servicer

inductive Event where
  | load (i : Nat) (request : Request)
  /-- The script gives the servers their names. -/
  | setServer (i : Nat) (mServerAlias : Text → Text)
  | setEnv (i : Nat) (env : ServiceEnv) (rest : Text)
  | endCase (i : Nat)

def Request.servicer (request : Request) (mServerMap : ServerMap) : Servicer where
  mServerMap aAlias := (mServerMap aAlias).getD emptyParams
  mServerAlias aAlias := if aAlias = "DEFAULT".toList then "DEFAULT".toList else []
  mEnvCASE := request.mEnvCASE
  mEnvHOME := request.mEnvHOME

def Caches.empty : Caches := ⟨fun _ => none, fun _ => false⟩

section Run

variable (w : StafCounts) (disk : Disk)

def Service.step (s : Service) : Event → Option Service
  | .load i request =>
    match load w disk s.caches request with
    | (_, .undefined) => none
    | (caches, .failure) => some { s with caches := caches }
    | (caches, .loaded mServerMap) =>
      some ⟨caches, Function.update s.running i (some (request.servicer mServerMap))⟩
  | .setServer i mServerAlias => (s.running i).map fun servicer =>
      { s with
        running := Function.update s.running i
          (some { servicer with mServerAlias := mServerAlias }) }
  | .setEnv i env rest => (s.running i).bind fun servicer =>
      (servicer.setEnv w.toStafWords env rest).map fun servicer =>
        { s with running := Function.update s.running i (some servicer) }
  | .endCase i => some { s with running := Function.update s.running i none }

def machine : Machine Service Event := ⟨⟨.empty, fun _ => none⟩, Service.step w disk⟩

end Run

/-! ## The properties -/

/-- A property of `ENV_PROPERTIES`. -/
structure EnvProperty (staf : Staf) where
  key : Text
  value : Text
  key_ne : key ≠ []
  key_clean : ∀ c ∈ key, staf.white c = false ∧ c ≠ '=' ∧ c ≠ ';'
  value_clean : ';' ∉ value

namespace EnvProperty

variable {staf : Staf}

def text (prop : EnvProperty staf) : Text := prop.key ++ '=' :: prop.value

/-- `K1=V1;K2=V2`, with a semicolon at the end or without. -/
def join (closed : Bool) : List (EnvProperty staf) → Text
  | [] => []
  | [prop] => prop.text ++ if closed then [';'] else []
  | prop :: prop' :: props => prop.text ++ ';' :: join closed (prop' :: props)

end EnvProperty

/-- What a server has of its own and from the default server. -/
structure Inherits (own default params : Params) : Prop where
  own_value : ∀ key value, own.find key = some value → value ≠ [] →
    params.find key = some value
  default_value : ∀ key, (∀ value, own.find key = some value → value = []) →
    ∀ value, default.find key = some value → params.find key = some value

section Law

variable (w : StafCounts) (disk : Disk)

/-- The default server has the properties, and the others inherit from it. -/
def Resolved (props : List (EnvProperty w.staf)) (servers mServerMap : ServerMap) : Prop :=
  ∃ default, mServerMap "DEFAULT".toList = some default ∧
    (∀ prop ∈ props, default.find prop.key = some prop.value) ∧
    ∀ server ≠ "DEFAULT".toList, ∀ own, servers server = some own →
      ∃ params, mServerMap server = some params ∧ Inherits own default params

/-- The request with the properties as the text of `ENV_PROPERTIES`. -/
def Request.giving {staf : Staf} (request : Request) (props : List (EnvProperty staf))
    (closed : Bool) : Request :=
  { request with ENV_PROPERTIES := EnvProperty.join closed props }

/-- What the load of a case comes to: the parameters of the servers of its `server.conf` are
resolved, if it succeeds, and it does not depend on the cases before. -/
structure Resolves (s : Service) (request : Request) (props : List (EnvProperty w.staf))
    (closed : Bool) : Prop where
  defined : (load w disk s.caches (request.giving props closed)).2 ≠ .undefined
  resolved : ∀ mServerMap,
    (load w disk s.caches (request.giving props closed)).2 = .loaded mServerMap →
      ∃ servers, disk.conf request.serverFile = some servers ∧ Resolved w props servers mServerMap
  independent : (load w disk s.caches (request.giving props closed)).2 =
    (load w disk .empty (request.giving props closed)).2

/-- No value has white space or a sign of equality, and no key has two values. -/
def Plain (props : List (EnvProperty w.staf)) : Prop :=
  (∀ prop ∈ props, ∀ c ∈ prop.value, w.staf.white c = false ∧ c ≠ '=') ∧
    ∀ prop ∈ props, ∀ prop' ∈ props, prop.key = prop'.key → prop.value = prop'.value

/-- The paths fit the buffer, and the properties are plain unless a file is missing. -/
def Fits (request : Request) (props : List (EnvProperty w.staf)) : Prop :=
  request.mIn.length < sizeofData1 ∧ request.serverFile.length < sizeofData1 ∧
    ((disk.conf request.serverFile).isSome →
      (∀ file ∈ request.mRECDATAFILE, file.length < sizeofData1) ∧
      ((∀ file ∈ request.mRECDATAFILE, disk.recPoints file = true) → Plain w props))

end Law

/-! ## Entries -/

section Entries

def toEntries (assigned : List (Key × Text)) : List (Text × Text) :=
  assigned.map fun entry => (entry.1.text, entry.2)

theorem toEntries_items (params : Params) : toEntries (items params) = params.entries := by
  rw [toEntries, items, List.map_pmap]
  exact (List.pmap_eq_map _).trans (List.map_id _)

theorem nodup_set {params : Params} (h : (params.entries.map Prod.fst).Nodup) (key : Key)
    (value : Text) : (((params.set key value).entries).map Prod.fst).Nodup := by
  show ((Params.setEntries params.entries key.text value).map Prod.fst).Nodup
  unfold Params.setEntries
  split
  · next hany =>
    have hkeys : ((fun entry : Text × Text => entry.1) ∘
        fun entry => if entry.1 = key.text then (key.text, value) else entry) = Prod.fst := by
      funext entry
      dsimp only [Function.comp]
      split
      · next heq => exact heq.symm
      · rfl
    rw [List.map_map, show Prod.fst ∘ _ = _ from hkeys]
    exact h
  · next hany =>
    have habsent : key.text ∉ params.entries.map Prod.fst := by
      intro hmem
      obtain ⟨entry, hentry, heq⟩ := List.mem_map.mp hmem
      exact hany (List.any_eq_true.mpr ⟨entry, hentry, decide_eq_true heq⟩)
    rw [← @List.takeWhile_append_dropWhile _ (fun entry => lessThan entry.1 key.text)
      params.entries, List.map_append] at h habsent
    rw [List.map_append, List.map_cons]
    exact (List.perm_middle.nodup_iff).mpr (List.nodup_cons.mpr ⟨habsent, h⟩)

theorem nodup_foldl_set (assigned : List (Key × Text)) {params : Params}
    (h : (params.entries.map Prod.fst).Nodup) :
    (((assigned.foldl (fun params entry => params.set entry.1 entry.2) params).entries).map
      Prod.fst).Nodup := by
  induction assigned generalizing params with
  | nil => exact h
  | cons entry assigned ih => exact ih (nodup_set h entry.1 entry.2)

/-- A key that is written has one of the values written for it. -/
theorem find_foldl_set (assigned : List (Key × Text)) (params : Params) {key : Text}
    (h : ∃ entry ∈ assigned, entry.1.text = key) :
    ∃ entry ∈ assigned, entry.1.text = key ∧
      (assigned.foldl (fun params entry => params.set entry.1 entry.2) params).find key =
        some entry.2 := by
  induction assigned using List.reverseRecOn with
  | nil =>
    obtain ⟨entry, hmem, -⟩ := h
    cases hmem
  | append_singleton assigned last ih =>
    rw [List.foldl_append, List.foldl_cons, List.foldl_nil, Params.find_set]
    by_cases hkey : key = last.1.text
    · exact ⟨last, by simp, hkey.symm, if_pos hkey⟩
    · obtain ⟨entry, hmem, heq⟩ := h
      have hbefore : entry ∈ assigned := by
        rcases List.mem_append.mp hmem with hmem | hmem
        · exact hmem
        · obtain rfl := List.mem_singleton.mp hmem
          exact absurd heq.symm hkey
      obtain ⟨entry', hmem', heq', hfind⟩ := ih ⟨entry, hbefore, heq⟩
      exact ⟨entry', List.mem_append_left _ hmem', heq', by rw [if_neg hkey, hfind]⟩

/-- The inner loop, from some place in the default server on. -/
private theorem find_inherit_loop (assigned : List (Key × Text))
    (hnodup : ((toEntries assigned).map Prod.fst).Nodup) (own sServer2 sServer3 : Params)
    (hcopy : ∀ key, (sServer3.find key).getD [] = (own.find key).getD []) (key : Text) :
    ((assigned.foldl (fun servers entry =>
        let sServer2 := servers.1
        let sServer3 := servers.2
        let found := (sServer3.find entry.1.text).getD []
        (if found.length = 0 then sServer2.set entry.1 entry.2 else sServer2,
          if sServer3.find entry.1.text = none then sServer3.set entry.1 [] else sServer3))
      (sServer2, sServer3)).1).find key =
      if (own.find key).getD [] = [] then
        (Params.valueOf key (toEntries assigned)).or (sServer2.find key)
      else sServer2.find key := by
  induction assigned generalizing sServer2 sServer3 with
  | nil => split <;> rfl
  | cons entry assigned ih =>
    obtain ⟨habsent, hnodup⟩ := List.nodup_cons.mp hnodup
    have hcopy' : ∀ key, ((if sServer3.find entry.1.text = none then sServer3.set entry.1 []
        else sServer3).find key).getD [] = (own.find key).getD [] := by
      intro other
      rw [← hcopy other]
      split
      · next hnone =>
        rw [Params.find_set]
        split
        · next heq => rw [heq, hnone, Option.getD_some, Option.getD_none]
        · rfl
      · rfl
    have hset : ((if ((sServer3.find entry.1.text).getD []).length = 0 then
        sServer2.set entry.1 entry.2 else sServer2).find key) =
        if key = entry.1.text ∧ (own.find key).getD [] = [] then some entry.2
        else sServer2.find key := by
      rw [← hcopy key]
      by_cases hkey : key = entry.1.text
      · rw [hkey]
        split
        · next hempty =>
          rw [Params.find_set, if_pos rfl, if_pos ⟨rfl, List.length_eq_zero_iff.mp hempty⟩]
        · next hempty => rw [if_neg fun h => hempty (List.length_eq_zero_iff.mpr h.2)]
      · have hnot : ¬(key = entry.1.text ∧ (sServer3.find key).getD [] = []) :=
          fun h => hkey h.1
        rw [if_neg hnot]
        split
        · rw [Params.find_set, if_neg hkey]
        · rfl
    rw [List.foldl_cons, ih hnodup _ _ hcopy', hset]
    show _ = if _ then (if entry.1.text = key then some entry.2 else _).or _ else _
    by_cases hkey : key = entry.1.text
    · -- the key of this entry does not come again
      have hnone : Params.valueOf key (toEntries assigned) = none :=
        Params.valueOf_eq_none fun other hother heq =>
          habsent (List.mem_map.mpr ⟨other, hother, heq.trans hkey⟩)
      rw [hnone, Option.none_or, if_pos hkey.symm, Option.some_or]
      split
      · next hempty => rw [if_pos ⟨hkey, hempty⟩]
      · next hempty => rw [if_neg fun h => hempty h.2]
    · have hnot : ¬(key = entry.1.text ∧ (own.find key).getD [] = []) := fun h => hkey h.1
      rw [if_neg hnot, if_neg (Ne.symm hkey)]
      rfl

/-- A parameter of the server itself, unless it is empty; else the one of the default server. -/
theorem find_inherit {sServer1 : Params} (hnodup : (sServer1.entries.map Prod.fst).Nodup)
    (own : Params) (key : Text) : (inherit sServer1 own).find key =
      if (own.find key).getD [] = [] then (sServer1.find key).or (own.find key)
      else own.find key := by
  have hloop := find_inherit_loop (items sServer1) (by rwa [toEntries_items]) own own own
    (fun _ => rfl) key
  rw [toEntries_items] at hloop
  exact hloop

theorem inherits_inherit {sServer1 : Params} (hnodup : (sServer1.entries.map Prod.fst).Nodup)
    (own : Params) : Inherits own sServer1 (inherit sServer1 own) := by
  constructor
  · intro key value hown hne
    rw [find_inherit hnodup, hown, if_neg]
    exact hne
  · intro key hempty value hdefault
    have hnone : (own.find key).getD [] = [] := by
      cases hown : own.find key with
      | none => rfl
      | some old => exact hempty old hown
    rw [find_inherit hnodup, if_pos hnone, hdefault, Option.some_or]

end Entries

/-! ## Words -/

section Words

variable {w : StafCounts}

theorem word_eq_getD (s : Text) (i : Nat) :
    w.staf.word s i = ((tokens w.staf.white s)[i]?).getD [] := by
  rw [w.word_eq, takeWhile_dropWordsWith]

variable (w) in
/-- What is written for a word of `mEnvAll`. -/
def written (word : Text) : Key × Text :=
  let sEnv := w.staf.replace word ['='] [' ']
  (w.key sEnv 0, w.staf.word sEnv 1)

theorem withProperties_eq (request : Request) (default : Params) :
    withProperties w request default =
      ((tokens w.staf.white (mEnvAll w request)).map (written w)).foldl
        (fun params entry => params.set entry.1 entry.2) default := by
  have hwords : (List.range (w.numWords (mEnvAll w request))).map
      (w.staf.word (mEnvAll w request)) = tokens w.staf.white (mEnvAll w request) := by
    rw [w.numWords_eq]
    refine List.ext_getElem (by simp) fun i _ hi => ?_
    rw [List.getElem_map, List.getElem_range, word_eq_getD, List.getElem?_eq_getElem hi,
      Option.getD_some]
  rw [withProperties, List.foldl_map, ← hwords, List.foldl_map]
  rfl

theorem white_sign (w : StafCounts) : w.staf.white '=' = false :=
  w.staf.white_printable '=' (by decide) (by decide)

private theorem replace_sign (c : Char) (s : Text) :
    w.staf.replace s [c] [' '] = s.map fun d => if d = c then ' ' else d := by
  rw [w.staf.replace_eq _ _ _ (List.cons_ne_nil _ _), replaceAll_singleton, List.map_eq_flatMap]
  congr 1
  funext d
  split <;> rfl

/-- No value that is written has white space or a sign of equality. -/
theorem written_clean (word : Text) :
    ∀ c ∈ (written w word).2, w.staf.white c = false ∧ c ≠ '=' := by
  intro c hc
  change c ∈ w.staf.word _ 1 at hc
  rw [word_eq_getD, replace_sign] at hc
  cases hsecond : (tokens w.staf.white (word.map fun d => if d = '=' then ' ' else d))[1]? with
  | none =>
    rw [hsecond] at hc
    cases hc
  | some v =>
    rw [hsecond] at hc
    obtain ⟨hv, hmem⟩ := isWord_of_mem_tokens (List.mem_of_getElem? hsecond)
    refine ⟨hv c hc, ?_⟩
    rintro rfl
    obtain ⟨d, -, heq⟩ := List.mem_map.mp (hmem '=' hc)
    split at heq
    · exact absurd heq (by decide)
    · next hne => exact hne heq

private theorem map_eq_self {c : Char} {s : Text} (h : c ∉ s) :
    (s.map fun d => if d = c then ' ' else d) = s := by
  refine (List.map_congr_left fun d hd => if_neg ?_).trans (List.map_id _)
  rintro rfl
  exact h hd

/-- The key is what stands in front of the first sign of equality. -/
theorem written_key {key : Text} (hne : key ≠ []) (hkey : IsWord w.staf.white key)
    (heq : '=' ∉ key) (v : Text) : (written w (key ++ '=' :: v)).1.text = key ∧
      (written w (key ++ '=' :: v)).2 =
        ((tokens w.staf.white (v.map fun d => if d = '=' then ' ' else d))[0]?).getD [] := by
  have htokens : tokens w.staf.white (w.staf.replace (key ++ '=' :: v) ['='] [' ']) =
      key :: tokens w.staf.white (v.map fun d => if d = '=' then ' ' else d) := by
    rw [replace_sign, List.map_append, List.map_cons, if_pos rfl, map_eq_self heq,
      tokens_append w.staf.white_blank, tokens_word hkey hne]
    rfl
  constructor
  · show w.staf.word _ 0 = key
    rw [word_eq_getD, htokens]
    rfl
  · show w.staf.word _ 1 = _
    rw [word_eq_getD, htokens, List.getElem?_cons_succ]

namespace EnvProperty

variable {staf : Staf}

theorem isWord_key (prop : EnvProperty staf) : IsWord staf.white prop.key :=
  fun c hc => (prop.key_clean c hc).1

theorem notMem_key (prop : EnvProperty staf) : '=' ∉ prop.key :=
  fun h => (prop.key_clean '=' h).2.1 rfl

theorem notMem_text (prop : EnvProperty staf) : ';' ∉ prop.text := by
  intro h
  rcases List.mem_append.mp h with h | h
  · exact (prop.key_clean ';' h).2.2 rfl
  · exact prop.value_clean ((List.mem_cons.mp h).resolve_left (by decide))

/-- The first word of a property has its key. -/
theorem exists_tokens_text (prop : EnvProperty w.staf) : ∃ v ws,
    tokens w.staf.white prop.text = (prop.key ++ '=' :: v) :: ws ∧
      ((∀ c ∈ prop.value, w.staf.white c = false) → v = prop.value ∧ ws = []) := by
  have hword : IsWord w.staf.white
      (prop.key ++ '=' :: prop.value.takeWhile fun c => !w.staf.white c) := by
    intro c hc
    rcases List.mem_append.mp hc with hc | hc
    · exact prop.isWord_key c hc
    · rcases List.mem_cons.mp hc with rfl | hc
      · exact white_sign w
      · simpa using List.mem_takeWhile_imp hc
  refine ⟨prop.value.takeWhile fun c => !w.staf.white c,
    tokens w.staf.white (prop.value.dropWhile fun c => !w.staf.white c), ?_, ?_⟩
  · have hsplit : prop.text = (prop.key ++ '=' :: prop.value.takeWhile fun c => !w.staf.white c) ++
        prop.value.dropWhile fun c => !w.staf.white c := by
      rw [text, List.append_assoc, List.cons_append, List.takeWhile_append_dropWhile]
    rw [hsplit, tokens_append_of_head, tokens_word hword (by simp)]
    · rfl
    · intro c hc
      have hhead := List.head?_dropWhile_not (fun c => !w.staf.white c) prop.value
      rw [hc] at hhead
      simpa using hhead
  · intro hvalue
    have hall : ∀ c ∈ prop.value, (!w.staf.white c) = true := fun c hc => by simp [hvalue c hc]
    rw [List.takeWhile_eq_self_iff.mpr hall, List.dropWhile_eq_nil_iff.mpr hall]
    exact ⟨rfl, rfl⟩

theorem tokens_join (closed : Bool) (props : List (EnvProperty w.staf)) :
    tokens w.staf.white ((join closed props).map fun d => if d = ';' then ' ' else d) =
      props.flatMap fun prop => tokens w.staf.white prop.text := by
  induction props with
  | nil => rfl
  | cons prop props ih =>
    cases props with
    | nil =>
      rw [join, List.map_append, map_eq_self prop.notMem_text, List.flatMap_singleton]
      cases closed with
      | false => rw [if_neg (by decide), List.map_nil, List.append_nil]
      | true => exact (tokens_append w.staf.white_blank _ []).trans (List.append_nil _)
    | cons prop' props =>
      rw [join, List.map_append, List.map_cons, map_eq_self prop.notMem_text, if_pos rfl,
        tokens_append w.staf.white_blank, ih]
      rfl

end EnvProperty

theorem tokens_mEnvAll (request : Request) (props : List (EnvProperty w.staf)) (closed : Bool) :
    tokens w.staf.white (mEnvAll w (request.giving props closed)) =
      props.flatMap fun prop => tokens w.staf.white prop.text := by
  rw [mEnvAll, replace_sign]
  exact EnvProperty.tokens_join closed props

/-- The default server has exactly the values of plain properties. -/
theorem find_withProperties_iff (request : Request) (props : List (EnvProperty w.staf))
    (closed : Bool) (default : Params) :
    (∀ prop ∈ props, (withProperties w (request.giving props closed) default).find prop.key =
      some prop.value) ↔ Plain w props := by
  rw [withProperties_eq, tokens_mEnvAll]
  -- a key that is given comes up among the words
  have hgiven : ∀ prop ∈ props, ∃ entry ∈ (props.flatMap fun prop =>
      tokens w.staf.white prop.text).map (written w), entry.1.text = prop.key := by
    intro prop hprop
    obtain ⟨v, ws, htokens, -⟩ := prop.exists_tokens_text
    refine ⟨_, List.mem_map_of_mem (List.mem_flatMap.mpr ⟨prop, hprop, ?_⟩),
      (written_key prop.key_ne prop.isWord_key prop.notMem_key v).1⟩
    rw [htokens]
    exact List.mem_cons_self
  constructor
  · intro h
    refine ⟨fun prop hprop => ?_, fun prop hprop prop' hprop' hkey => ?_⟩
    · obtain ⟨entry, hentry, -, hfind⟩ := find_foldl_set _ default (hgiven prop hprop)
      obtain ⟨word, -, rfl⟩ := List.mem_map.mp hentry
      rw [h prop hprop] at hfind
      rw [Option.some.inj hfind]
      exact written_clean word
    · have hvalue := h prop hprop
      rw [hkey, h prop' hprop'] at hvalue
      exact (Option.some.inj hvalue).symm
  · rintro ⟨hclean, hsame⟩ prop hprop
    obtain ⟨entry, hentry, hkey, hfind⟩ := find_foldl_set _ default (hgiven prop hprop)
    obtain ⟨word, hword, rfl⟩ := List.mem_map.mp hentry
    obtain ⟨prop', hprop', hword⟩ := List.mem_flatMap.mp hword
    obtain ⟨v, ws, htokens, hwhole⟩ := prop'.exists_tokens_text
    have hvalue := hclean prop' hprop'
    obtain ⟨rfl, rfl⟩ := hwhole fun c hc => (hvalue c hc).1
    rw [htokens] at hword
    obtain rfl := List.mem_singleton.mp hword
    obtain ⟨hfirst, hsecond⟩ :=
      written_key prop'.key_ne prop'.isWord_key prop'.notMem_key prop'.value
    have hplain : '=' ∉ prop'.value := fun h => (hvalue '=' h).2 rfl
    have htoken : ((tokens w.staf.white prop'.value)[0]?).getD [] = prop'.value := by
      by_cases hne : prop'.value = []
      · rw [hne]
        rfl
      · rw [tokens_word (fun c hc => (hvalue c hc).1) hne]
        rfl
    rw [hfind, hsecond, map_eq_self hplain, htoken,
      hsame prop' hprop' prop hprop (hfirst.symm.trans hkey)]

end Words

/-! ## The caches -/

section Caches

variable {w : StafCounts} {disk : Disk}

variable (disk) in
/-- The caches have what a case would read itself. -/
structure Caches.Sound (caches : Caches) : Prop where
  servers : ∀ path mServerMap, caches.gServerCache path = some mServerMap →
    disk.conf path = some mServerMap ∧ path.length < sizeofData1
  recPoints : ∀ file, caches.gRecPointCache file = true → disk.recPoints file = true

variable (w disk) in
/-- What comes of the recovery points without the caches. -/
def recOutcome (request : Request) (mServerMap : ServerMap) : Outcome :=
  match request.mRECDATAFILE with
  | none => resolve w request mServerMap
  | some file =>
    if sizeofData1 ≤ file.length then .undefined
    else if disk.recPoints file = true then resolve w request mServerMap
    else .failure

variable (w disk) in
/-- What comes of a load without the caches. -/
def outcome (request : Request) : Outcome :=
  if sizeofData1 ≤ request.mIn.length ∨ sizeofData1 ≤ request.serverFile.length then .undefined
  else
    match disk.conf request.serverFile with
    | none => .failure
    | some mServerMap => recOutcome w disk request mServerMap

theorem loadRecPoints_spec {caches : Caches} (h : caches.Sound disk) (request : Request)
    (mServerMap : ServerMap) :
    (loadRecPoints w disk caches request mServerMap).2 = recOutcome w disk request mServerMap ∧
      (loadRecPoints w disk caches request mServerMap).1.Sound disk := by
  unfold loadRecPoints recOutcome
  cases request.mRECDATAFILE with
  | none => exact ⟨rfl, h⟩
  | some file =>
    dsimp only
    split
    · exact ⟨rfl, h⟩
    · split
      · by_cases hload : disk.recPoints file = true
        · rw [if_pos hload, if_pos hload]
          refine ⟨rfl, h.servers, fun other hother => ?_⟩
          by_cases heq : other = file
          · rw [heq, hload]
          · change Function.update caches.gRecPointCache file true other = true at hother
            rw [Function.update_of_ne heq] at hother
            exact h.recPoints other hother
        · rw [if_neg hload, if_neg hload]
          exact ⟨rfl, h⟩
      · next hcached =>
        obtain ⟨hcached, -⟩ := not_or.mp hcached
        rw [if_pos (h.recPoints file (by simpa using hcached))]
        exact ⟨rfl, h⟩

theorem load_spec {caches : Caches} (h : caches.Sound disk) (request : Request) :
    (load w disk caches request).2 = outcome w disk request ∧
      (load w disk caches request).1.Sound disk := by
  unfold load outcome
  by_cases hmIn : sizeofData1 ≤ request.mIn.length
  · rw [if_pos hmIn, if_pos (Or.inl hmIn)]
    exact ⟨rfl, h⟩
  rw [if_neg hmIn]
  dsimp only
  cases hcached : (if begins w request then none else caches.gServerCache request.serverFile) with
  | some mServerMap =>
    have hentry : caches.gServerCache request.serverFile = some mServerMap := by
      split at hcached
      · cases hcached
      · exact hcached
    obtain ⟨hconf, hlength⟩ := h.servers _ _ hentry
    dsimp only
    rw [if_neg (not_or.mpr ⟨hmIn, Nat.not_le.mpr hlength⟩), hconf]
    exact loadRecPoints_spec h request mServerMap
  | none =>
    dsimp only
    by_cases hpath : sizeofData1 ≤ request.serverFile.length
    · rw [if_pos hpath, if_pos (Or.inr hpath)]
      exact ⟨rfl, h⟩
    rw [if_neg hpath, if_neg (not_or.mpr ⟨hmIn, hpath⟩)]
    cases hconf : disk.conf request.serverFile with
    | none => exact ⟨rfl, h⟩
    | some mServerMap =>
      dsimp only
      have hsound : Caches.Sound disk { caches with
          gServerCache := Function.update caches.gServerCache request.serverFile
            (some mServerMap) } := by
        refine ⟨fun path servers hservers => ?_, h.recPoints⟩
        dsimp only at hservers
        by_cases heq : path = request.serverFile
        · rw [heq] at hservers ⊢
          rw [Function.update_self] at hservers
          exact ⟨hconf.trans hservers, Nat.lt_of_not_le hpath⟩
        · rw [Function.update_of_ne heq] at hservers
          exact h.servers path servers hservers
      exact loadRecPoints_spec hsound request mServerMap

theorem sound_empty : Caches.empty.Sound disk := by
  constructor
  · intro path mServerMap h
    cases h
  · intro file h
    cases h

/-- No step changes an entry of the caches: only a load writes there, and what it has read. -/
theorem step_sound {s s' : Service} {e : Event} (h : s.caches.Sound disk)
    (hstep : (machine w disk).step s e = some s') : s'.caches.Sound disk := by
  change s.step w disk e = some s' at hstep
  cases e with
  | load i request =>
    have hload := (@load_spec w _ _ h request).2
    unfold Service.step at hstep
    dsimp only at hstep
    split at hstep
    · cases hstep
    · next heq =>
      cases hstep
      rwa [heq] at hload
    · next heq =>
      cases hstep
      rwa [heq] at hload
  | setServer i mServerAlias =>
    obtain ⟨servicer, -, rfl⟩ := Option.map_eq_some_iff.mp hstep
    exact h
  | setEnv i env rest =>
    obtain ⟨servicer, -, hset⟩ := Option.bind_eq_some_iff.mp hstep
    obtain ⟨servicer', -, rfl⟩ := Option.map_eq_some_iff.mp hset
    exact h
  | endCase i =>
    cases hstep
    exact h

theorem sound_of_reachable {s : Service} (h : (machine w disk).Reachable s) :
    s.caches.Sound disk :=
  h.invariant sound_empty fun _ _ _ hs _ hstep => step_sound hs hstep

end Caches

/-! ## The law -/

section Resolution

variable {w : StafCounts} {disk : Disk}

theorem length_agentFile (request : Request) :
    request.agentFile.length = request.serverFile.length := by
  have hlength : "/conf/tagent.conf".toList.length = "/conf/server.conf".toList.length := by
    decide +kernel
  rw [Request.agentFile, Request.serverFile, List.length_append, List.length_append, hlength]

private theorem nodup_default {servers : ServerMap} {path : Text}
    (h : disk.conf path = some servers) (request : Request) :
    ((withProperties w request (withVariables request
      ((servers "DEFAULT".toList).getD emptyParams))).entries.map Prod.fst).Nodup := by
  rw [withProperties_eq, withVariables]
  apply nodup_foldl_set
  apply nodup_foldl_set
  cases hdefault : servers "DEFAULT".toList with
  | none => exact List.nodup_nil
  | some default => exact disk.nodup h hdefault

/-- The servers of a file are resolved exactly if the properties are plain. -/
theorem resolved_iff {servers : ServerMap} {request : Request}
    (hconf : disk.conf request.serverFile = some servers)
    (hfits : request.serverFile.length < sizeofData1) (props : List (EnvProperty w.staf))
    (closed : Bool) : ∃ mServerMap,
      resolve w (request.giving props closed) servers = .loaded mServerMap ∧
        (Resolved w props servers mServerMap ↔ Plain w props) := by
  have hagent : ¬sizeofData1 ≤ (request.giving props closed).agentFile.length := by
    rw [length_agentFile]
    exact Nat.not_le.mpr hfits
  unfold resolve
  dsimp only
  rw [if_neg hagent]
  refine ⟨_, rfl, ?_⟩
  generalize hdefault : withProperties w (request.giving props closed)
    (withVariables (request.giving props closed) ((servers "DEFAULT".toList).getD emptyParams)) =
      default
  have hnodup : (default.entries.map Prod.fst).Nodup := by
    rw [← hdefault]
    exact nodup_default hconf _
  have hself : inheritAll default (Function.update servers "DEFAULT".toList (some default))
      "DEFAULT".toList = some default := by
    rw [inheritAll, if_neg (fun h => h rfl), Function.update_self]
  have hprops := find_withProperties_iff request props closed
    (withVariables (request.giving props closed) ((servers "DEFAULT".toList).getD emptyParams))
  rw [hdefault] at hprops
  rw [← hprops]
  constructor
  · rintro ⟨default', hdefault', hprops, -⟩
    obtain rfl := Option.some.inj (hself.symm.trans hdefault')
    exact hprops
  · intro hprops
    refine ⟨default, hself, hprops, fun server hserver own hown => ?_⟩
    refine ⟨inherit default own, ?_, inherits_inherit hnodup own⟩
    rw [inheritAll, if_pos hserver, Function.update_of_ne hserver, hown]
    rfl

variable (w disk) in
/-- The part of the law that is about the outcome alone. -/
def Meets (request : Request) (props : List (EnvProperty w.staf)) (result : Outcome) : Prop :=
  result ≠ .undefined ∧ ∀ mServerMap, result = .loaded mServerMap →
    ∃ servers, disk.conf request.serverFile = some servers ∧ Resolved w props servers mServerMap

theorem meets_failure (request : Request) (props : List (EnvProperty w.staf)) :
    Meets w disk request props .failure := by
  refine ⟨fun h => ?_, fun mServerMap h => ?_⟩ <;> cases h

theorem not_meets_undefined (request : Request) (props : List (EnvProperty w.staf)) :
    ¬Meets w disk request props .undefined := fun h => h.1 rfl

theorem meets_resolve_iff {servers : ServerMap} {request : Request}
    (hconf : disk.conf request.serverFile = some servers)
    (hfits : request.serverFile.length < sizeofData1) (props : List (EnvProperty w.staf))
    (closed : Bool) :
    Meets w disk request props (resolve w (request.giving props closed) servers) ↔
      Plain w props := by
  obtain ⟨mServerMap, hresolve, hiff⟩ := resolved_iff hconf hfits props closed
  rw [hresolve, ← hiff]
  constructor
  · intro h
    obtain ⟨servers', hconf', hresolved⟩ := h.2 mServerMap rfl
    obtain rfl := Option.some.inj (hconf.symm.trans hconf')
    exact hresolved
  · intro h
    refine ⟨fun heq => ?_, fun other heq => ⟨servers, hconf, ?_⟩⟩ <;> cases heq
    exact h

theorem meets_recOutcome_iff {servers : ServerMap} {request : Request}
    (hconf : disk.conf request.serverFile = some servers)
    (hfits : request.serverFile.length < sizeofData1) (props : List (EnvProperty w.staf))
    (closed : Bool) :
    Meets w disk request props (recOutcome w disk (request.giving props closed) servers) ↔
      (∀ file ∈ request.mRECDATAFILE, file.length < sizeofData1) ∧
        ((∀ file ∈ request.mRECDATAFILE, disk.recPoints file = true) → Plain w props) := by
  have hresolve := @meets_resolve_iff w disk servers request hconf hfits props closed
  unfold recOutcome
  rw [show (request.giving props closed).mRECDATAFILE = request.mRECDATAFILE from rfl]
  cases request.mRECDATAFILE with
  | none => simpa using hresolve
  | some file =>
    dsimp only
    split
    · next hlong =>
      refine iff_of_false (not_meets_undefined request props) fun h => ?_
      exact Nat.not_le.mpr (h.1 file rfl) hlong
    · next hshort =>
      split
      · next hload =>
        rw [hresolve]
        simp [hload, Nat.lt_of_not_le hshort]
      · next hload =>
        refine iff_of_true (meets_failure request props) ⟨?_, fun h => absurd (h file rfl) hload⟩
        rintro other ⟨⟩
        exact Nat.lt_of_not_le hshort

theorem meets_outcome_iff (request : Request) (props : List (EnvProperty w.staf))
    (closed : Bool) : Meets w disk request props (outcome w disk (request.giving props closed)) ↔
      Fits w disk request props := by
  unfold outcome Fits
  rw [show (request.giving props closed).serverFile = request.serverFile from rfl,
    show (request.giving props closed).mIn = request.mIn from rfl]
  split
  · next hlong =>
    refine iff_of_false (not_meets_undefined request props) fun h => ?_
    rcases hlong with hlong | hlong
    · exact Nat.not_le.mpr h.1 hlong
    · exact Nat.not_le.mpr h.2.1 hlong
  · next hshort =>
    obtain ⟨hmIn, hpath⟩ := not_or.mp hshort
    have hpath := Nat.lt_of_not_le hpath
    rw [and_iff_right (Nat.lt_of_not_le hmIn), and_iff_right hpath]
    cases hconf : disk.conf request.serverFile with
    | none => exact iff_of_true (meets_failure request props) fun h => by cases h
    | some servers =>
      rw [imp_iff_right (Option.isSome_some)]
      exact meets_recOutcome_iff hconf hpath props closed

end Resolution

section Example

def asciiCounts : StafCounts where
  toStafWords := asciiWords
  numWords s := (tokens Char.isWhitespace s).length
  numWords_eq _ := rfl

theorem keyK_ne : ['K'] ≠ ([] : Text) := List.cons_ne_nil _ _

/-- `K=a=b` -/
def signInside : EnvProperty asciiCounts.staf where
  key := ['K']
  value := ['a', '=', 'b']
  key_ne := keyK_ne
  key_clean := List.forall_mem_singleton.mpr (by decide)
  value_clean := by decide

/-- A file without servers. -/
def noServers : Disk where
  conf _ := some fun _ => none
  recPoints _ := false
  nodup := by
    rintro path servers h server params hparams
    obtain rfl := Option.some.inj h
    cases hparams

def plainRequest : Request := ⟨[], [], [], [], [], [], [], [], none⟩

theorem reachable_start (w : StafCounts) (disk : Disk) :
    (machine w disk).Reachable (machine w disk).start := .start

end Example

end Natc.Ats.ServerParams
