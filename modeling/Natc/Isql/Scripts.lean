import Natc.Isql.Command
import Natc.Lib.Paths

/-!
# Nested scripts

`iSQLCompiler` reads from the first file of a list. A script is put in front of the list with the
directory of its name, and taken off when it ends. `none` is a copy past the end of a buffer, or an
access through a NULL pointer.
-/

namespace Natc.Isql

open Natc.Lib

/-- `IDL_FILE_SEPARATOR`. -/
def separator : UInt8 := 47

def dot : UInt8 := 46

/-- `script_file`: the name it was opened by, which stdin does not have, and its directory. -/
structure ScriptFile where
  fp : Option Bytes
  filePath : Bytes
  deriving DecidableEq

/-- The input of `iSQLCompiler`. -/
structure Scripts where
  m_flist : List ScriptFile
  m_FileRead : Bool
  deriving DecidableEq

/-- How a call ended, with the name that was to be opened. -/
inductive Opened where
  | success (full_filename : Bytes)
  | failOpenFile (full_filename : Bytes)
  | noHome
  deriving DecidableEq

/-- What the files and the environment hold: `ALTIBASE_HOME`, the names that can be opened, and
whether isql was started with a file. -/
structure Surroundings where
  home : Option Bytes
  opens : Bytes → Bool
  isInFile : Bool

/-- A copy into a buffer of `WORD_LEN` bytes. -/
def copyWord (s : Bytes) : Option Bytes :=
  if s.length < 256 then some s else none

/-- The name with `.sql` behind it, unless there is a dot behind the last separator. -/
def withSql (tmp : Bytes) : Bytes :=
  if dot ∈ Path.baseName separator tmp then tmp else tmp ++ [46, 115, 113, 108]

namespace Scripts

/-- `iSQLCompiler::RegStdin` before any other call, or none with `-f`. -/
def new (env : Surroundings) : Scripts where
  m_flist := if env.isInFile then [] else [⟨none, []⟩]
  m_FileRead := false

variable (env : Surroundings) (m : Scripts)

/-- The first value of `filePath`; `some none` is a missing `ALTIBASE_HOME`. -/
def filePath (tmp : Bytes) : PathType → Option (Option Bytes)
  | .cwd => (copyWord (Path.dirName separator tmp)).map some
  | .at =>
      match m.m_flist with
      | [] => some (some [])
      | sf :: _ => (copyWord sf.filePath).map some
  | .home =>
      match env.home with
      | none => some none
      | some pos => do
          let path ← copyWord pos
          if Path.isAbsolute separator tmp then (copyWord (path ++ [separator])).map some
          else some (some path)

/-- `iSQLCompiler::SetScriptFile`. -/
def setScriptFile (a_FileName : Bytes) (a_PathType : PathType) : Option (Opened × Scripts) := do
  let tmp ← copyWord a_FileName
  match ← filePath env m tmp a_PathType with
  | none => some (.noHome, m)
  | some path =>
      let filename ← copyWord (withSql tmp)
      let full_filename ← copyWord (if a_PathType = .cwd then filename else path ++ filename)
      if env.opens full_filename then
        let path ← copyWord (Path.dirName separator full_filename)
        some (.success full_filename,
          { m_flist := ⟨some full_filename, path⟩ :: m.m_flist, m_FileRead := true })
      else some (.failOpenFile full_filename, m)

/-- `iSQLCompiler::ResetInput`. -/
def resetInput : Option (Bool × Scripts) :=
  match m.m_flist with
  | [] => none
  | _ :: [] => some (false, { m_flist := [], m_FileRead := false })
  | _ :: sf :: rest =>
      some (true, {
        m_flist := sf :: rest
        m_FileRead := if env.isInFile = false ∧ rest = [] then false else m.m_FileRead })

/-! ## What the names are to mean -/

inductive Step where
  | setScriptFile (a_FileName : Bytes) (a_PathType : PathType)
  | resetInput

/-- The file that is to be opened, where `dirs` are the directories of the scripts that are being
read, the innermost one first. -/
def expected (dirs : List (Path UInt8)) (a_FileName : Bytes) : PathType → Option (Path UInt8)
  | .cwd => some (Path.of separator (withSql a_FileName))
  | .at =>
      if Path.isAbsolute separator a_FileName then some (Path.of separator (withSql a_FileName))
      else some ((dirs.headD Path.here).join (Path.of separator (withSql a_FileName)))
  | .home => env.home.map fun home =>
      (Path.of separator home).join (Path.of separator (withSql a_FileName))

/-- Every name leads to the file it is to lead to. A script that was opened adds its directory, one
that ended takes its directory away. -/
def Resolves : List Step → Scripts → List (Path UInt8) → Prop
  | [], _, _ => True
  | .setScriptFile a_FileName a_PathType :: steps, m, dirs =>
      match setScriptFile env m a_FileName a_PathType, expected env dirs a_FileName a_PathType with
      | some (.success full_filename, m'), some file =>
          Path.of separator full_filename = file ∧ Resolves steps m' (file.parent :: dirs)
      | some (.failOpenFile full_filename, m'), some file =>
          Path.of separator full_filename = file ∧ Resolves steps m' dirs
      | some (.noHome, m'), none => Resolves steps m' dirs
      | _, _ => False
  | .resetInput :: steps, m, dirs =>
      match resetInput env m with
      | some (_, m') => Resolves steps m' dirs.tail
      | none => False

/-- The directory that `@` begins with. -/
def directory : Bytes := (m.m_flist.head?.map (·.filePath)).getD []

/-- When a call does the right thing: the names fit in the buffers; an absolute `@` name is given
where the directory is empty or the root; a name under `ALTIBASE_HOME` begins with a separator, or
`ALTIBASE_HOME` ends with one. -/
def Sound : Step → Prop
  | .setScriptFile a_FileName .cwd => (withSql a_FileName).length < 256
  | .setScriptFile a_FileName .at =>
      m.directory.length + (withSql a_FileName).length < 256 ∧
        (Path.isAbsolute separator a_FileName →
          m.directory = [] ∨ Path.of separator m.directory = Path.root)
  | .setScriptFile a_FileName .home =>
      match env.home with
      | none => a_FileName.length < 256
      | some home =>
          if Path.isAbsolute separator a_FileName then
            home.length + 1 + (withSql a_FileName).length < 256 ∧ home ≠ []
          else home.length + (withSql a_FileName).length < 256 ∧ Path.Closed separator home
  | .resetInput => m.m_flist ≠ []

/-- The state after a step. -/
def next : Step → Option Scripts
  | .setScriptFile a_FileName a_PathType =>
      (setScriptFile env m a_FileName a_PathType).map Prod.snd
  | .resetInput => (resetInput env m).map Prod.snd

/-- All steps of a run are sound in the states in which they are made. -/
def SoundRun : List Step → Scripts → Prop
  | [], _ => True
  | s :: steps, m => Sound env m s ∧ ∀ m', next env m s = some m' → SoundRun steps m'

variable {env m} {dirs : List (Path UInt8)} {name : Bytes} {type : PathType}

/-! ## The composed name -/

/-- The list behind a script that was opened. -/
def opened (m : Scripts) (full : Bytes) : Scripts where
  m_flist := ⟨some full, Path.dirName separator full⟩ :: m.m_flist
  m_FileRead := true

/-- `full_filename` without the buffers. -/
def composed (env : Surroundings) (m : Scripts) (name : Bytes) : PathType → Option Bytes
  | .cwd => some (withSql name)
  | .at => some (m.directory ++ withSql name)
  | .home => env.home.map fun home =>
      (if Path.isAbsolute separator name then home ++ [separator] else home) ++ withSql name

theorem length_le_withSql (name : Bytes) : name.length ≤ (withSql name).length := by
  rw [withSql]
  split
  · exact Nat.le_refl _
  · exact List.length_append ▸ Nat.le_add_right _ _

theorem length_dirName_le (s : Bytes) : (Path.dirName separator s).length ≤ s.length :=
  (List.rdropWhile_prefix _ _).length_le

theorem isAbsolute_withSql (name : Bytes) :
    Path.isAbsolute separator (withSql name) = Path.isAbsolute separator name := by
  rw [withSql]
  split
  · rfl
  · by_cases hne : name = []
    · rw [hne]
      rfl
    · exact Path.isAbsolute_append hne _

theorem not_closed_withSql (name : Bytes) : ¬Path.Closed separator (withSql name) := by
  rw [withSql]
  split
  · next hdot =>
    intro hclosed
    rw [hclosed.baseName_eq_nil] at hdot
    cases hdot
  · refine Path.not_closed_append (fun hclosed => ?_) name
    exact absurd (hclosed 108 rfl) (by decide)

theorem copyWord_eq {s : Bytes} (h : s.length < 256) : copyWord s = some s := if_pos h

theorem copyWord_eq_none {s : Bytes} (h : ¬s.length < 256) : copyWord s = none := if_neg h

/-- The directory in front of the name. -/
def prefixOf (env : Surroundings) (m : Scripts) (name : Bytes) : PathType → Option Bytes
  | .cwd => some (Path.dirName separator name)
  | .at => some m.directory
  | .home => env.home.map fun home =>
      if Path.isAbsolute separator name then home ++ [separator] else home

theorem filePath_eq {path : Bytes} (h : prefixOf env m name type = some path) :
    filePath env m name type = (copyWord path).map some := by
  cases type with
  | cwd =>
    cases h
    rfl
  | «at» =>
    cases h
    rw [directory, filePath]
    cases m.m_flist <;> rfl
  | home =>
    rw [prefixOf] at h
    obtain ⟨home, hhome, rfl⟩ := Option.map_eq_some_iff.mp h
    rw [filePath, hhome]
    dsimp only
    by_cases hshort : home.length < 256
    · rw [copyWord_eq hshort, Option.bind_eq_bind, Option.bind_some]
      split
      · rfl
      · rw [copyWord_eq hshort]
        rfl
    · have hlong : ¬(home ++ [separator]).length < 256 := by
        rw [List.length_append]
        omega
      rw [copyWord_eq_none hshort, Option.bind_eq_bind, Option.bind_none]
      split
      · rw [copyWord_eq_none hlong]
        rfl
      · rw [copyWord_eq_none hshort]
        rfl

theorem composed_eq {path : Bytes} (h : prefixOf env m name type = some path) :
    composed env m name type =
      some (if type = .cwd then withSql name else path ++ withSql name) := by
  cases type with
  | cwd => rfl
  | «at» =>
    cases h
    rfl
  | home =>
    obtain ⟨home, hhome, rfl⟩ := Option.map_eq_some_iff.mp h
    rw [composed, hhome, if_neg PathType.noConfusion]
    rfl

/-- Every part of a name fits if the name does. -/
theorem length_prefixOf_le {path : Bytes} (h : prefixOf env m name type = some path) :
    path.length ≤ (if type = .cwd then withSql name else path ++ withSql name).length := by
  split
  · next hcwd =>
    subst hcwd
    cases h
    exact (length_dirName_le name).trans (length_le_withSql name)
  · exact List.length_append ▸ Nat.le_add_right _ _

theorem length_withSql_le (path : Bytes) :
    (withSql name).length ≤
      (if type = .cwd then withSql name else path ++ withSql name).length := by
  split
  · exact Nat.le_refl _
  · exact List.length_append ▸ Nat.le_add_left _ _

/-- A call that composes a name. -/
theorem setScriptFile_of_composed {full : Bytes} (h : composed env m name type = some full) :
    setScriptFile env m name type =
      if full.length < 256 then
        some (if env.opens full then (.success full, m.opened full) else (.failOpenFile full, m))
      else none := by
  obtain ⟨path, hpath⟩ : ∃ path, prefixOf env m name type = some path := by
    cases type with
    | cwd => exact ⟨_, rfl⟩
    | «at» => exact ⟨_, rfl⟩
    | home =>
      obtain ⟨home, hhome, -⟩ := Option.map_eq_some_iff.mp h
      exact ⟨_, by rw [prefixOf, hhome, Option.map_some]⟩
  rw [composed_eq hpath, Option.some.injEq] at h
  have hname := length_le_withSql name
  have hsql := @length_withSql_le name type path
  have hpre := length_prefixOf_le hpath
  rw [h] at hsql hpre
  rw [setScriptFile, Option.bind_eq_bind]
  by_cases hshort : full.length < 256
  · have hdir := length_dirName_le full
    rw [if_pos hshort, copyWord_eq (hname.trans_lt (hsql.trans_lt hshort)), Option.bind_some,
      filePath_eq hpath, copyWord_eq (hpre.trans_lt hshort), Option.map_some,
      Option.bind_eq_bind, Option.bind_some]
    dsimp only
    rw [copyWord_eq (hsql.trans_lt hshort), Option.bind_some, h, copyWord_eq hshort,
      Option.bind_some]
    split
    · rw [copyWord_eq (hdir.trans_lt hshort)]
      rfl
    · rfl
  · -- the last copy fails unless one in front of it does
    rw [if_neg hshort]
    by_cases htmp : name.length < 256
    · rw [copyWord_eq htmp, Option.bind_some, filePath_eq hpath]
      by_cases hdir : path.length < 256
      · rw [copyWord_eq hdir, Option.map_some, Option.bind_eq_bind, Option.bind_some]
        dsimp only
        by_cases hfile : (withSql name).length < 256
        · rw [copyWord_eq hfile, Option.bind_some, h, copyWord_eq_none hshort]
          rfl
        · rw [copyWord_eq_none hfile]
          rfl
      · rw [copyWord_eq_none hdir]
        rfl
    · rw [copyWord_eq_none htmp]
      rfl

theorem setScriptFile_of_none (h : composed env m name type = none) :
    setScriptFile env m name type = if name.length < 256 then some (.noHome, m) else none := by
  cases type with
  | cwd => cases h
  | «at» => cases h
  | home =>
    have hhome : env.home = none := Option.map_eq_none_iff.mp h
    rw [setScriptFile, Option.bind_eq_bind]
    by_cases hshort : name.length < 256
    · rw [if_pos hshort, copyWord_eq hshort, Option.bind_some, filePath, hhome]
      rfl
    · rw [if_neg hshort, copyWord_eq_none hshort]
      rfl

/-! ## Runs -/

/-- `dirs` are the directories of the open scripts. -/
structure Tracks (m : Scripts) (dirs : List (Path UInt8)) : Prop where
  dirs_eq : m.m_flist.map (fun sf => Path.of separator sf.filePath) = dirs
  closed : ∀ sf ∈ m.m_flist, Path.Closed separator sf.filePath

theorem Tracks.of_directory (h : Tracks m dirs) :
    Path.of separator m.directory = dirs.headD Path.here := by
  rw [← h.dirs_eq, directory]
  cases m.m_flist <;> rfl

theorem Tracks.closed_directory (h : Tracks m dirs) : Path.Closed separator m.directory := by
  have hclosed := h.closed
  rw [directory]
  cases hlist : m.m_flist with
  | nil => exact Path.closed_nil
  | cons sf rest => exact hclosed sf (by rw [hlist]; exact List.mem_cons_self)

/-- A name behind the directory of the script. -/
theorem Tracks.at_iff (h : Tracks m dirs) (name : Bytes) :
    some (Path.of separator (m.directory ++ withSql name)) = expected env dirs name .at ↔
      (Path.isAbsolute separator name →
        m.directory = [] ∨ Path.of separator m.directory = .root) := by
  rw [expected]
  split
  · next habsolute =>
    rw [Option.some.injEq]
    by_cases hdir : m.directory = []
    · rw [hdir, List.nil_append]
      exact iff_of_true rfl fun _ => Or.inl rfl
    · rw [Path.of_append h.closed_directory hdir,
        Path.join_eq_right_iff ((isAbsolute_withSql name).trans habsolute)]
      exact ⟨fun hroot _ => Or.inr hroot, fun hor => (hor habsolute).resolve_left hdir⟩
  · next hrelative =>
    have hsql : Path.isAbsolute separator (withSql name) = false := by
      rw [isAbsolute_withSql]
      exact Bool.eq_false_iff.mpr hrelative
    rw [Path.of_append_relative h.closed_directory hsql, h.of_directory]
    exact iff_of_true rfl fun habsolute => absurd habsolute hrelative

/-- A name behind `ALTIBASE_HOME`. -/
theorem home_iff (home name : Bytes) :
    Path.of separator ((if Path.isAbsolute separator name then home ++ [separator] else home) ++
        withSql name) =
      (Path.of separator home).join (Path.of separator (withSql name)) ↔
      if Path.isAbsolute separator name then home ≠ [] else Path.Closed separator home := by
  split
  · rw [Path.of_append (Path.closed_append_sep home)
      (List.append_ne_nil_of_right_ne_nil _ (List.cons_ne_nil _ _))]
    by_cases hhome : home = []
    · refine iff_of_false (fun heq => ?_) (not_not.mpr hhome)
      rw [hhome] at heq
      have habsolute : true = false := congrArg Path.absolute heq
      cases habsolute
    · rw [Path.of_append_sep hhome]
      exact iff_of_true rfl hhome
  · next hrelative =>
    have hsql : Path.isAbsolute separator (withSql name) = false := by
      rw [isAbsolute_withSql]
      exact Bool.eq_false_iff.mpr hrelative
    by_cases hclosed : Path.Closed separator home
    · exact iff_of_true (Path.of_append_relative hclosed hsql) hclosed
    · refine iff_of_false (fun heq => ?_) hclosed
      have hne : withSql name ≠ [] :=
        fun hnil => not_closed_withSql name (hnil ▸ Path.closed_nil)
      have hlength := Path.length_components_append hclosed hsql hne
      have hparts := congrArg (fun p : Path UInt8 => p.parts.length) heq
      simp only [Path.join, Path.of, List.length_append] at hparts
      omega

/-- A step is sound exactly if its name fits and leads to the right place. -/
theorem Tracks.sound_iff (h : Tracks m dirs) {full : Bytes}
    (hfull : composed env m name type = some full) :
    Sound env m (.setScriptFile name type) ↔
      some (Path.of separator full) = expected env dirs name type ∧ full.length < 256 := by
  cases type with
  | cwd =>
    cases hfull
    exact (and_iff_right rfl).symm
  | «at» =>
    cases hfull
    rw [Sound, h.at_iff, List.length_append, and_comm]
  | home =>
    obtain ⟨home, hhome, rfl⟩ := Option.map_eq_some_iff.mp hfull
    rw [Sound, expected, hhome, Option.map_some, Option.some.injEq, home_iff, List.length_append]
    dsimp only
    split
    · rw [List.length_append, List.length_singleton, and_comm]
    · rw [and_comm]

theorem composed_eq_none_iff :
    composed env m name type = none ↔ expected env dirs name type = none := by
  cases type with
  | cwd => exact iff_of_false (Option.some_ne_none _) (Option.some_ne_none _)
  | «at» =>
    rw [expected]
    refine iff_of_false (Option.some_ne_none _) ?_
    split <;> exact Option.some_ne_none _
  | home => rw [composed, expected, Option.map_eq_none_iff, Option.map_eq_none_iff]

/-- An opened script adds the directory of its file. -/
theorem Tracks.push (h : Tracks m dirs) {full : Bytes}
    (hfull : composed env m name type = some full) :
    Tracks (m.opened full) ((Path.of separator full).parent :: dirs) := by
  have hclosed : ¬Path.Closed separator full := by
    cases type with
    | cwd =>
      cases hfull
      exact not_closed_withSql name
    | «at» =>
      cases hfull
      exact Path.not_closed_append (not_closed_withSql name) _
    | home =>
      obtain ⟨home, -, rfl⟩ := Option.map_eq_some_iff.mp hfull
      exact Path.not_closed_append (not_closed_withSql name) _
  refine ⟨?_, List.forall_mem_cons.mpr ⟨Path.closed_dirName full, h.closed⟩⟩
  rw [opened, List.map_cons, h.dirs_eq, Path.of_dirName (Path.baseName_ne_nil hclosed)]

/-- A script that ended takes its directory away. -/
theorem Tracks.resetInput (h : Tracks m dirs) {ok : Bool} {m' : Scripts}
    (hreset : resetInput env m = some (ok, m')) : Tracks m' dirs.tail := by
  obtain ⟨hdirs, hclosed⟩ := h
  rw [Scripts.resetInput] at hreset
  rw [← hdirs]
  split at hreset
  · cases hreset
  · next sf hlist =>
    cases hreset
    rw [hlist]
    exact ⟨rfl, fun _ hmem => absurd hmem List.not_mem_nil⟩
  · next sf sf' rest hlist =>
    cases hreset
    rw [hlist] at hclosed ⊢
    exact ⟨rfl, fun s hs => hclosed s (List.mem_cons_of_mem _ hs)⟩

/-- A call that composes a name, and the run behind it. -/
theorem resolves_of_composed {full : Bytes} (hfull : composed env m name type = some full)
    (steps : List Step) : Resolves env (.setScriptFile name type :: steps) m dirs ↔
      (some (Path.of separator full) = expected env dirs name type ∧ full.length < 256) ∧
        if env.opens full then
          Resolves env steps (m.opened full) ((Path.of separator full).parent :: dirs)
        else Resolves env steps m dirs := by
  rw [Resolves, setScriptFile_of_composed hfull]
  by_cases hshort : full.length < 256
  · rw [if_pos hshort, and_iff_left hshort]
    cases hfile : expected env dirs name type with
    | none => exact absurd (composed_eq_none_iff.mpr hfile) (hfull ▸ Option.some_ne_none _)
    | some file =>
      rw [Option.some.injEq]
      by_cases hopens : env.opens full = true
      · rw [if_pos hopens, if_pos hopens]
        refine and_congr_right fun heq => ?_
        rw [heq]
      · rw [if_neg hopens, if_neg hopens]
  · rw [if_neg hshort]
    exact iff_of_false not_false fun hand => hshort hand.1.2

theorem resolves_of_none (hnone : composed env m name type = none) (steps : List Step) :
    Resolves env (.setScriptFile name type :: steps) m dirs ↔
      name.length < 256 ∧ Resolves env steps m dirs := by
  rw [Resolves, setScriptFile_of_none hnone, composed_eq_none_iff.mp hnone]
  by_cases hshort : name.length < 256
  · rw [if_pos hshort]
    exact (and_iff_right hshort).symm
  · rw [if_neg hshort]
    exact iff_of_false not_false fun hand => hshort hand.1

theorem next_of_composed {full : Bytes} (hfull : composed env m name type = some full)
    (hshort : full.length < 256) : next env m (.setScriptFile name type) =
      some (if env.opens full then m.opened full else m) := by
  rw [next, setScriptFile_of_composed hfull, if_pos hshort, Option.map_some]
  split <;> rfl

/-- From any state: the names of a run lead to the right files exactly if its steps are sound. -/
theorem Tracks.resolves_all_iff (h : Tracks m dirs) (steps : List Step) :
    Resolves env steps m dirs ↔ SoundRun env steps m := by
  induction steps generalizing m dirs with
  | nil => exact Iff.rfl
  | cons s steps ih =>
    rw [SoundRun]
    cases s with
    | setScriptFile name type =>
      cases hfull : composed env m name type with
      | none =>
        have hsound : Sound env m (.setScriptFile name type) ↔ name.length < 256 := by
          cases type with
          | cwd => cases hfull
          | «at» => cases hfull
          | home => rw [Sound, Option.map_eq_none_iff.mp hfull]
        rw [resolves_of_none hfull, hsound, ih h]
        refine and_congr_right fun hshort => ?_
        rw [next, setScriptFile_of_none hfull, if_pos hshort]
        simp
      | some full =>
        rw [resolves_of_composed hfull, h.sound_iff hfull]
        refine and_congr_right fun hright => ?_
        rw [next_of_composed hfull hright.2]
        split
        · rw [ih (h.push hfull)]
          simp
        · rw [ih h]
          simp
    | resetInput =>
      rw [Resolves, Sound, next]
      cases hreset : Scripts.resetInput env m with
      | none =>
        refine iff_of_false not_false fun hand => hand.1 ?_
        rw [Scripts.resetInput] at hreset
        split at hreset
        · next hlist => exact hlist
        · cases hreset
        · cases hreset
      | some p =>
        obtain ⟨ok, m'⟩ := p
        have hne : m.m_flist ≠ [] := by
          intro hnil
          rw [Scripts.resetInput, hnil] at hreset
          cases hreset
        dsimp only
        rw [and_iff_right hne, ih (h.resetInput hreset)]
        simp

/-- In a run from the start of isql every name leads to the file it is to lead to exactly if every
step is sound. -/
theorem resolves_iff (env : Surroundings) (steps : List Step) :
    Resolves env steps (new env) ((new env).m_flist.map fun _ => Path.here) ↔
      SoundRun env steps (new env) := by
  refine Tracks.resolves_all_iff ⟨?_, ?_⟩ steps
  · rw [new]
    split <;> rfl
  · rw [new]
    split
    · exact fun _ hmem => absurd hmem List.not_mem_nil
    · exact List.forall_mem_singleton.mpr Path.closed_nil

/-- `?a` with `ALTIBASE_HOME` set to `/home` is not the file `a.sql` under that directory. -/
theorem not_resolves_home :
    ¬Resolves ⟨some [47, 104, 111, 109, 101], fun _ => true, false⟩ [.setScriptFile [97] .home]
      (new ⟨some [47, 104, 111, 109, 101], fun _ => true, false⟩) [Path.here] := by
  intro h
  exact absurd h.1 (by decide)

end Scripts

end Natc.Isql
