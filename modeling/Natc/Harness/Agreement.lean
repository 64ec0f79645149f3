import Natc.Harness.Loading
import Natc.Harness.SectorRuns

/-!
# Agreement with a golden run

A compare run that records what the golden run recorded passes, and one that differs in a line
fails, unless the texts themselves get in the way: a recorded line that looks like the border of a
frame in front of a header without one, or the mark of an empty output line at the end of a sector.
-/

namespace Natc.Harness.Golden

open Lib

section Property

/-- One recorded line is changed, added or removed; a change is one of what the line shows. -/
inductive Edited : List Text → List Text → Prop where
  | changed (pre post : List Text) (l l' : Text) (h : shown l ≠ shown l') :
    Edited (pre ++ l :: post) (pre ++ l' :: post)
  | added (pre post : List Text) (l : Text) : Edited (pre ++ post) (pre ++ l :: post)
  | removed (pre post : List Text) (l : Text) : Edited (pre ++ l :: post) (pre ++ post)

/-- One entry of one process records something else, by one line. -/
def OneEdit (script : Script) (out out' : Outputs) : Prop :=
  ∃ key ∈ script.keys, ∃ i, (script.queue key)[i]? = some .other ∧
    Edited (out.lines key i) (out'.lines key i) ∧
    ∀ key' i', (key', i') ≠ (key, i) → out'.lines key' i' = out.lines key' i'

/-- The outputs differ in an empty line at the end of a sector. -/
def FinalEmpty (script : Script) (out out' : Outputs) : Prop :=
  ∃ key ∈ script.keys, ∃ (pre post : List Section) (s s' : Section),
    sections (script.acts out key) = pre ++ s :: post ∧
    sections (script.acts out' key) = pre ++ s' :: post ∧
    (s'.texts = s.texts ++ [[]] ∨ s.texts = s'.texts ++ [[]])

/-- Every complete compare run with these outputs passes. -/
def Repeats (script : Script) (out : Outputs) (e : Expect) : Prop :=
  ∀ b, (script.run out false e).Reachable b → b.Complete script.keys →
    (∀ r ∈ b.results, r.2 = true) ∧ b.Expect.keys = [] ∧
      b.report_TC script.dispatch.q_sct = .PASS

/-- Every complete compare run with outputs that differ in one line fails. -/
def Detects (script : Script) (out : Outputs) (e : Expect) : Prop :=
  ∀ out', OneEdit script out out' → ¬ FinalEmpty script out out' →
    ∀ b, (script.run out' false e).Reachable b → b.Complete script.keys →
      b.report_TC script.dispatch.q_sct = .FAIL

/-- Compare runs agree with the golden run that wrote the `.lst` file. -/
def Agrees (script : Script) (out : Outputs) : Prop :=
  ∀ g, (script.run out true ∅).Reachable g → g.Complete script.keys →
    Repeats script out (_load_lst_file_db (lstFile script.keys g)) ∧
    Detects script out (_load_lst_file_db (lstFile script.keys g))

/-- No recorded line is taken for the header of another sector. -/
def OwnHeaders (script : Script) (out : Outputs) : Prop :=
  ∀ key ∈ script.keys, ∀ s ∈ sections (script.acts out key), s.Own

instance (script : Script) (out : Outputs) : Decidable (OwnHeaders script out) :=
  inferInstanceAs (Decidable (∀ key ∈ script.keys, ∀ s ∈ sections (script.acts out key), s.Own))

/-- No header without a frame follows a line that looks like the border of one. -/
def Unframed (script : Script) (out : Outputs) : Prop :=
  ∀ key ∈ script.keys,
    (sections (script.acts out key)).IsChain fun a b => b.opens → ¬ a.border

instance (script : Script) (out : Outputs) : Decidable (Unframed script out) :=
  inferInstanceAs (Decidable (∀ key ∈ script.keys,
    (sections (script.acts out key)).IsChain fun a b => b.opens → ¬ a.border))

/-- No sector ends with the mark of an empty output line. -/
def Unmarked (script : Script) (out : Outputs) : Prop :=
  ∀ key ∈ script.keys, ∀ s ∈ sections (script.acts out key),
    s.lines.getLast? ≠ some ['.', ' ']

instance (script : Script) (out : Outputs) : Decidable (Unmarked script out) :=
  inferInstanceAs (Decidable (∀ key ∈ script.keys, ∀ s ∈ sections (script.acts out key),
    s.lines.getLast? ≠ some ['.', ' ']))

end Property

section File

variable (script : Script) (out : Outputs)

/-- The sections in the order in which the file holds them. -/
def fileSections : List Section :=
  (sortKeys script.keys).flatMap fun key => sections (script.acts out key)

theorem perm_sortKeys (keys : List Text) : (sortKeys keys).Perm keys :=
  List.perm_insertionSort _ _

theorem perm_fileSections : (fileSections script out).Perm (script.allSections out) :=
  (perm_sortKeys _).flatMap_right _

theorem mem_fileSections {s : Section} :
    s ∈ fileSections script out ↔ ∃ key ∈ script.keys, s ∈ sections (script.acts out key) := by
  rw [(perm_fileSections script out).mem_iff, Script.allSections, List.mem_flatMap]

theorem nodup_fileSections : ((fileSections script out).map fun a => a.h.q_sct).Nodup :=
  ((perm_fileSections script out).map _).nodup_iff.mpr (script.nodup_allSections out)

theorem body_fileSections {s : Section} (hs : s ∈ fileSections script out)
    (hp : s.printed = false) : s.body = [] := by
  obtain ⟨key, -, hs⟩ := (mem_fileSections script out).mp hs
  exact body_of_not_printed hs hp

theorem mem_shown {c : Char} {l : Text} (h : c ∈ shown l) : c ∈ l := by
  rw [shown] at h
  split at h
  · exact List.mem_of_mem_drop h
  · exact h

/-- Headers and recorded lines are lines. -/
theorem plain_recorded {as : List Act}
    (hheader : ∀ h, .SECTOR h ∈ as → '\n' ∉ h.text)
    (hlines : ∀ ls, .lines ls ∈ as → ∀ l ∈ ls, '\n' ∉ l) : ∀ l ∈ recorded as, '\n' ∉ l := by
  induction as with
  | nil => simp [recorded]
  | cons a as ih =>
    have hrest := ih (fun h hh => hheader h (List.mem_cons_of_mem _ hh))
      (fun ls hls => hlines ls (List.mem_cons_of_mem _ hls))
    intro l hl
    cases a with
    | lines ls =>
      rw [recorded, List.mem_append] at hl
      rcases hl with hl | hl
      · exact hlines ls List.mem_cons_self l hl
      · exact hrest l hl
    | SECTOR h =>
      have htext := hheader h List.mem_cons_self
      rw [recorded, List.mem_append] at hl
      rcases hl with hl | hl
      · split at hl
        · cases hl
        · rw [Header.lines] at hl
          split at hl
          · simp only [List.mem_cons, List.not_mem_nil, or_false] at hl
            rcases hl with rfl | rfl | rfl | rfl | rfl
            · decide
            · decide
            · exact htext
            · decide
            · decide
          · rw [List.mem_singleton.mp hl]
            exact htext
      · exact hrest l hl

theorem plain_acts {key : Text} (hkey : key ∈ script.keys) :
    ∀ l ∈ recorded (script.acts out key), '\n' ∉ l := by
  apply plain_recorded
  · intro h hh
    obtain ⟨i, hi, heq⟩ := List.mem_mapIdx.mp hh
    apply script.plain_queue hkey
    cases hq : (script.queue key)[i] with
    | SECTOR h' =>
      rw [hq, Entry.act] at heq
      cases heq
      rw [← hq]
      exact List.getElem_mem hi
    | other =>
      rw [hq, Entry.act] at heq
      cases heq
  · intro ls hls
    obtain ⟨i, hi, heq⟩ := List.mem_mapIdx.mp hls
    cases hq : (script.queue key)[i] with
    | SECTOR h' =>
      rw [hq, Entry.act] at heq
      cases heq
    | other =>
      rw [hq, Entry.act] at heq
      cases heq
      exact out.plain key i

/-- All that a process records belongs to its sections. -/
theorem recorded_acts {key : Text} (hkey : key ∈ script.keys) :
    recorded (script.acts out key) = (sections (script.acts out key)).flatMap (·.lines) := by
  obtain ⟨h, as, hacts, -⟩ := script.acts_eq out hkey
  rw [recorded_eq, hacts]
  rfl

variable {script out}

/-- The lines of the file are what the sections show. -/
theorem chompedLines_lstFile {g : Bench} (hg : (script.run out true ∅).Reachable g)
    (hc : g.Complete script.keys) :
    chompedLines (lstFile script.keys g) = (fileSections script out).flatMap (·.texts) := by
  have hkeys : ∀ key ∈ sortKeys script.keys, key ∈ script.keys :=
    fun key hkey => (perm_sortKeys _).mem_iff.mp hkey
  have hfile : lstFile script.keys g =
      ((fileSections script out).flatMap (·.texts)).flatMap fun l => l ++ ['\n'] := by
    rw [lstFile, fileSections, List.flatMap_assoc, List.flatMap_assoc]
    apply List.flatMap_congr
    intro key hkey
    rw [golden_OUT hg hc (hkeys key hkey), recorded_acts script out (hkeys key hkey),
      List.flatMap_assoc]
    apply List.flatMap_congr
    intro s _
    rw [Section.texts, List.flatMap_map]
  rw [hfile, chompedLines_flatMap]
  intro l hl hn
  obtain ⟨s, hs, hl⟩ := List.mem_flatMap.mp hl
  obtain ⟨l', hl', rfl⟩ := List.mem_map.mp hl
  obtain ⟨key, hkey, hs⟩ := (mem_fileSections script out).mp hs
  have hrec : l' ∈ recorded (script.acts out key) := by
    rw [recorded_acts script out hkey]
    exact List.mem_flatMap.mpr ⟨s, hs, hl'⟩
  exact plain_acts script out hkey l' hrec (mem_shown hn)

/-- Where each process has its sections in order, the file has them in order. -/
theorem isChain_fileSections {R : Section → Section → Prop}
    (hR : ∀ a b, ¬ b.opens → R a b)
    (h : ∀ key ∈ script.keys, (sections (script.acts out key)).IsChain R) :
    (fileSections script out).IsChain R := by
  have hkeys : ∀ key ∈ sortKeys script.keys, key ∈ script.keys :=
    fun key hkey => (perm_sortKeys _).mem_iff.mp hkey
  rw [fileSections]
  generalize sortKeys script.keys = keys at hkeys
  induction keys with
  | nil => exact .nil
  | cons key keys ih =>
    rw [List.flatMap_cons]
    apply (h key (hkeys key List.mem_cons_self)).append
      (ih fun j hj => hkeys j (List.mem_cons_of_mem _ hj))
    intro a _ b hb
    -- the first section of a process has a framed header
    apply hR
    intro hopens
    cases keys with
    | nil => cases hb
    | cons j keys =>
      have hj := hkeys j (List.mem_cons_of_mem _ List.mem_cons_self)
      obtain ⟨hd, as, hacts, hatc⟩ := script.acts_eq out hj
      rw [List.flatMap_cons, hacts, sections_SECTOR, List.cons_append, List.head?_cons] at hb
      cases hb
      exact hopens.2 hatc

/-- The first section of the file has a framed header. -/
theorem head_fileSections : ∀ a ∈ (fileSections script out).head?, ¬ a.opens := by
  have hkeys : ∀ key ∈ sortKeys script.keys, key ∈ script.keys :=
    fun key hkey => (perm_sortKeys _).mem_iff.mp hkey
  intro a ha hopens
  rw [fileSections] at ha
  cases hsort : sortKeys script.keys with
  | nil =>
    rw [hsort] at ha
    cases ha
  | cons j keys =>
    obtain ⟨hd, as, hacts, hatc⟩ := script.acts_eq out (hkeys j (by rw [hsort]; simp))
    rw [hsort, List.flatMap_cons, hacts, sections_SECTOR, List.cons_append, List.head?_cons] at ha
    cases ha
    exact hopens.2 hatc

end File

/-- A list that is no chain is one up to a first break. -/
theorem exists_break {α : Type} {R : α → α → Prop} {l : List α} (h : ¬ l.IsChain R) :
    ∃ pre a b post, l = pre ++ a :: b :: post ∧ (pre ++ [a]).IsChain R ∧ ¬ R a b := by
  induction l with
  | nil => exact absurd .nil h
  | cons x l ih =>
    cases l with
    | nil => exact absurd (.singleton x) h
    | cons y l =>
      by_cases hxy : R x y
      · have hrest : ¬ (y :: l).IsChain R := fun hl => h (.cons_cons hxy hl)
        obtain ⟨pre, a, b, post, heq, hchain, hab⟩ := ih hrest
        refine ⟨x :: pre, a, b, post, by rw [heq]; rfl, ?_, hab⟩
        apply hchain.cons
        intro z hz
        have hzy : z = y := by
          cases pre with
          | nil => simp_all
          | cons w pre => simp_all
        exact hzy ▸ hxy
      · exact ⟨[], x, y, l, rfl, .singleton x, hxy⟩

section Expectation

variable {script : Script} {out : Outputs} {g : Bench}

/-- The loader before the first line of the file. -/
def Loader.init : Loader := ⟨(∅ : Expect).insert (.num 0) [], .num 0, []⟩

theorem Loader.init_lst (k : SectKey) : Loader.init.diffs.lst k = [] := by
  rw [init, Expect.lst_insert]
  split <;> rfl

theorem load_eq (hg : (script.run out true ∅).Reachable g) (hc : g.Complete script.keys) :
    _load_lst_file_db (lstFile script.keys g) =
      (((fileSections script out).flatMap (·.texts)).foldl Loader.line Loader.init).diffs := by
  rw [_load_lst_file_db, chompedLines_lstFile hg hc]
  rfl

/-- Where no header is misread, each section finds its own lines. -/
theorem lst_load (hg : (script.run out true ∅).Reachable g) (hc : g.Complete script.keys)
    (hown : OwnHeaders script out) (hframe : Unframed script out) {s : Section}
    (hs : s ∈ script.allSections out) :
    (_load_lst_file_db (lstFile script.keys g)).lst (.num s.h.q_sct) = s.texts := by
  rw [load_eq hg hc]
  have hmem := (perm_fileSections script out).mem_iff.mpr hs
  refine (Loader.loaded_sections (fileSections script out) (nodup_fileSections script out) ?_ ?_
    (fun _ _ => Loader.init_lst _) ?_ ?_).lst s hmem
  · intro a ha
    obtain ⟨key, hkey, ha⟩ := (mem_fileSections script out).mp ha
    exact hown key hkey a ha
  · intro a ha
    exact body_fileSections script out ha
  · intro a ha hopens
    exact absurd hopens (head_fileSections a ha)
  · apply isChain_fileSections
    · intro a b hb hopens
      exact absurd hopens hb
    · intro key hkey
      have hprinted := isChain_sections (script.acts out key)
      have hborder := hframe key hkey
      rw [List.isChain_iff_forall_rel_of_append_cons_cons] at hprinted hborder ⊢
      intro a b l₁ l₂ heq hopens
      exact ⟨hprinted heq, hborder heq hopens⟩

/-- Only sectors of the script are loaded. -/
theorem mem_load (hg : (script.run out true ∅).Reachable g) (hc : g.Complete script.keys)
    (hown : OwnHeaders script out) :
    ∀ k ∈ _load_lst_file_db (lstFile script.keys g),
      ∃ n < script.dispatch.q_sct, k = .num n := by
  rw [load_eq hg hc]
  have hnum : ∀ s ∈ fileSections script out, s.h.q_sct < script.dispatch.q_sct := by
    intro s hs
    have hmem := List.mem_map_of_mem (f := fun a : Section => a.h.q_sct)
      ((perm_fileSections script out).mem_iff.mp hs)
    exact List.mem_range.mp ((script.perm_allSections out).mem_iff.mp hmem)
  have hpos : 0 < script.dispatch.q_sct := by
    have hfirst := script.sound_dispatch.first
    obtain ⟨hd, as, hacts, -⟩ := script.acts_eq out hfirst
    have hs : ⟨hd, !as.isEmpty, (cut as).1⟩ ∈ fileSections script out := by
      rw [mem_fileSections]
      use P0, hfirst
      rw [hacts, sections_SECTOR]
      exact List.mem_cons_self
    exact (Nat.zero_le _).trans_lt (hnum _ hs)
  apply Loader.foldl_keys
  · exact ⟨0, hpos, rfl⟩
  · intro k hk
    rcases AList.mem_insert _ |>.mp hk with rfl | hk
    · exact ⟨0, hpos, rfl⟩
    · cases hk
  · intro l hl k hk
    obtain ⟨s, hs, hl⟩ := List.mem_flatMap.mp hl
    obtain ⟨key, hkey, hs'⟩ := (mem_fileSections script out).mp hs
    use s.h.q_sct, hnum s hs
    exact Loader.headerKey_texts (hown key hkey s hs') (body_of_not_printed hs') hl k hk

/-- A header without a frame that follows a border takes two lines from the section before it. -/
theorem lst_load_of_framed (hg : (script.run out true ∅).Reachable g)
    (hc : g.Complete script.keys) (hown : OwnHeaders script out)
    (hframe : ¬ Unframed script out) : ∃ s ∈ script.allSections out, s.printed = true ∧
      (_load_lst_file_db (lstFile script.keys g)).lst (.num s.h.q_sct) =
        s.texts.dropLast.dropLast := by
  have hbroken : ¬ (fileSections script out).IsChain Loader.Follows := by
    intro hchain
    apply hframe
    intro key hkey
    have hmem : key ∈ sortKeys script.keys :=
      (perm_sortKeys _).mem_iff.mpr hkey
    obtain ⟨before, after, hsplit⟩ := List.append_of_mem hmem
    have hone : [key] <:+: sortKeys script.keys :=
      ⟨before, after, by rw [hsplit, List.append_assoc]; rfl⟩
    have hinfix := hone.flatMap fun key => sections (script.acts out key)
    rw [List.flatMap_singleton] at hinfix
    have hown := List.IsChain.infix hchain hinfix
    exact hown.imp fun a b h hopens => (h hopens).2
  obtain ⟨pre, a, b, post, heq, hchain, hab⟩ := exists_break hbroken
  have hprinted : (fileSections script out).IsChain fun a b => b.opens → a.printed = true := by
    apply isChain_fileSections
    · intro a b hb hopens
      exact absurd hopens hb
    · intro key _
      exact (isChain_sections (script.acts out key)).imp fun a b h _ => h
  simp only [Loader.Follows, Classical.not_imp, not_and, Classical.not_not] at hab
  obtain ⟨hopens, hborder⟩ := hab
  have hp : a.printed = true :=
    List.isChain_iff_forall_rel_of_append_cons_cons.mp hprinted heq hopens
  have hmem : ∀ c ∈ pre ++ a :: b :: post, c ∈ fileSections script out := by
    rw [heq]
    exact fun c hc => hc
  use a, (perm_fileSections script out).mem_iff.mp (hmem a (by simp)), hp
  rw [load_eq hg hc, heq]
  refine Loader.foldl_border pre post a b ?_ ?_ ?_ (fun _ _ => Loader.init_lst _) ?_ hchain hopens hp
    (hborder hp)
  · rw [← heq]
    exact nodup_fileSections script out
  · intro c hc
    obtain ⟨key, hkey, hc⟩ := (mem_fileSections script out).mp (hmem c hc)
    exact hown key hkey c hc
  · intro c hc
    exact body_fileSections script out (hmem c hc)
  · intro c hcHead hopens
    have hhead : ∀ a ∈ (fileSections script out).head?, ¬ a.opens := head_fileSections
    rw [heq] at hhead
    apply absurd hopens
    apply hhead
    cases pre with
    | nil => exact hcHead
    | cons d pre => exact hcHead

end Expectation

section Edit

variable {script : Script} {out out' : Outputs}

theorem Edited.shown_ne {ls ls' : List Text} (h : Edited ls ls') : ls.map shown ≠ ls'.map shown := by
  intro heq
  cases h with
  | changed pre post l l' hne =>
    simp only [List.map_append, List.map_cons, List.append_cancel_left_eq, List.cons.injEq,
      and_true] at heq
    exact hne heq
  | added pre post l =>
    have hlen := congrArg List.length heq
    simp at hlen
  | removed pre post l =>
    have hlen := congrArg List.length heq
    simp at hlen

/-- One section differs when one entry records something else. -/
theorem OneEdit.sections_eq (h : OneEdit script out out') : ∃ key ∈ script.keys,
    ∃ (pre : List Section) (s : Section) (post : List Section) (front back ls ls' : List Text),
      Edited ls ls' ∧
      sections (script.acts out key) = pre ++ ⟨s.h, s.printed, front ++ ls ++ back⟩ :: post ∧
      sections (script.acts out' key) = pre ++ ⟨s.h, s.printed, front ++ ls' ++ back⟩ :: post := by
  obtain ⟨key, hkey, i, hi, hedit, hother⟩ := h
  obtain ⟨hd, rest, hqueue, -⟩ := script.starts_queue hkey
  obtain ⟨hlt, hget⟩ := List.getElem?_eq_some_iff.mp hi
  have hsplit : script.queue key = (script.queue key).take i ++
      .other :: (script.queue key).drop (i + 1) := by
    rw [← hget, List.getElem_cons_drop, List.take_append_drop]
  have hfront : ((script.queue key).take i).length = i := by
    rw [List.length_take, min_eq_left hlt.le]
  have hacts : ∀ o : Outputs, script.acts o key =
      ((script.queue key).take i).mapIdx (fun j e => e.act (o.lines key j)) ++
        .lines (o.lines key i) :: ((script.queue key).drop (i + 1)).mapIdx
          fun j e => e.act (o.lines key (j + 1 + i)) := by
    intro o
    rw [Script.acts]
    conv_lhs => rw [hsplit]
    rw [List.mapIdx_append, List.mapIdx_cons, hfront, Nat.zero_add]
    rfl
  have hpre : ((script.queue key).take i).mapIdx (fun j e => e.act (out'.lines key j)) =
      ((script.queue key).take i).mapIdx (fun j e => e.act (out.lines key j)) := by
    rw [List.mapIdx_eq_mapIdx_iff]
    intro j hj
    rw [hfront] at hj
    rw [hother key j (by simp; omega)]
  have hpost : ((script.queue key).drop (i + 1)).mapIdx
      (fun j e => e.act (out'.lines key (j + 1 + i))) =
      ((script.queue key).drop (i + 1)).mapIdx fun j e => e.act (out.lines key (j + 1 + i)) := by
    rw [List.mapIdx_eq_mapIdx_iff]
    intro j hj
    rw [hother key (j + 1 + i) (by simp)]
  -- the queue starts with a header, so the entry stands behind it
  obtain ⟨as, has⟩ : ∃ as,
      ((script.queue key).take i).mapIdx (fun j e => e.act (out.lines key j)) =
        .SECTOR hd :: as := by
    cases i with
    | zero =>
      rw [hqueue] at hi
      cases hi
    | succ i =>
      rw [hqueue, List.take_succ_cons, List.mapIdx_cons]
      exact ⟨_, rfl⟩
  obtain ⟨pre, s, post, front, back, heq⟩ := sections_append hd as
    (((script.queue key).drop (i + 1)).mapIdx fun j e => e.act (out.lines key (j + 1 + i)))
  refine ⟨key, hkey, pre, s, post, front, back, _, _, hedit, ?_, ?_⟩
  · rw [hacts out, has, List.cons_append]
    exact heq _
  · rw [hacts out', hpre, hpost, has, List.cons_append]
    exact heq _

end Edit

section Theorem

variable {script : Script} {out out' : Outputs} {g : Bench} {e : Expect}

/-- Against the texts of its own sections a run repeats exactly when no sector ends with a mark. -/
theorem repeats_of_lst (hlst : ∀ s ∈ script.allSections out, e.lst (.num s.h.q_sct) = s.texts)
    (hkeys : ∀ k ∈ e, ∃ n < script.dispatch.q_sct, k = .num n) :
    Repeats script out e ↔ Unmarked script out := by
  constructor
  · intro h key hkey s hs
    obtain ⟨b, hb, hc⟩ := script.exists_complete out false e
    have hmem : s ∈ script.allSections out := List.mem_flatMap.mpr ⟨key, hkey, hs⟩
    have hne : s.lines ≠ [] ∨ e.lst (.num s.h.q_sct) = [] := by
      rw [hlst s hmem, Section.texts, List.map_eq_nil_iff]
      exact ne_or_eq _ _
    have hres := (compared_of_reachable hb).result hc hmem hne
    have hpass := (h b hb hc).1 _ hres
    rw [hlst s hmem] at hpass
    exact (passes_self_iff s.lines).mp hpass
  · intro h b hb hc
    have hcompared := compared_of_reachable hb
    have hnil := hcompared.keys_eq_nil hc hkeys
    have hall : ∀ r ∈ b.results, r.2 = true := by
      intro r hr
      obtain ⟨s, hs, hnum, hres⟩ := hcompared.judged r hr
      rw [← hnum, hlst s hs] at hres
      obtain ⟨key, hkey, hs'⟩ := List.mem_flatMap.mp hs
      rw [hres]
      · exact (passes_self_iff s.lines).mpr (h key hkey s hs')
      · rw [Section.texts, List.map_eq_nil_iff]
        exact ne_or_eq _ _
    exact ⟨hall, hnil, (report_TC_eq_PASS hcompared hc).mpr ⟨hall, hnil⟩⟩

theorem report_TC_eq_FAIL {b : Bench} (hcompared : Compared script out e b)
    (hc : b.Complete script.keys) {n : Nat} (hr : (n, false) ∈ b.results) :
    b.report_TC script.dispatch.q_sct = .FAIL := by
  cases h : b.report_TC script.dispatch.q_sct with
  | FAIL => rfl
  | PASS => cases ((report_TC_eq_PASS hcompared hc).mp h).1 _ hr

/-- Against the texts of its own sections every edit is found. -/
theorem detects_of_lst (hlst : ∀ s ∈ script.allSections out, e.lst (.num s.h.q_sct) = s.texts) :
    Detects script out e := by
  intro out' hedit hfinal b hb hc
  obtain ⟨key, hkey, pre, s, post, front, back, ls, ls', hls, heq, heq'⟩ := hedit.sections_eq
  let a : Section := ⟨s.h, s.printed, front ++ ls ++ back⟩
  let a' : Section := ⟨s.h, s.printed, front ++ ls' ++ back⟩
  have ha : a ∈ script.allSections out :=
    List.mem_flatMap.mpr ⟨key, hkey, by rw [heq]; simp [a]⟩
  have ha' : a' ∈ script.allSections out' :=
    List.mem_flatMap.mpr ⟨key, hkey, by rw [heq']; simp [a']⟩
  have hexpect : e.lst (.num a'.h.q_sct) = a.texts := hlst a ha
  have hbody : ∀ c ∈ sections (script.acts out key), c.printed = false → c.body = [] :=
    fun c hc hp => body_of_not_printed hc hp
  have hne : a'.lines ≠ [] ∨ e.lst (.num a'.h.q_sct) = [] := by
    rw [hexpect]
    cases hp : s.printed with
    | true =>
      left
      intro hnil
      have htexts := Loader.texts_of_printed (a := a') hp
      rw [Section.texts, hnil] at htexts
      have hlines : a'.h.lines ≠ [] := by
        rw [Header.lines]
        split <;> simp
      exact hlines (List.append_eq_nil_iff.mp htexts.symm).1
    | false =>
      right
      exact Loader.texts_of_not_printed hp (hbody a (by rw [heq]; simp [a]) hp)
  have hresult := (compared_of_reachable hb).result hc ha' hne
  cases hpass : passes a'.lines (e.lst (.num a'.h.q_sct)) with
  | false =>
    rw [hpass] at hresult
    exact report_TC_eq_FAIL (compared_of_reachable hb) hc hresult
  | true =>
    rw [hexpect] at hpass
    rcases eq_of_passes hpass with hsame | hshort
    · exfalso
      apply hls.shown_ne
      simp only [Section.texts, Section.lines, a, a', List.map_append, List.append_cancel_left_eq,
        List.append_cancel_right_eq] at hsame
      exact hsame.symm
    · exfalso
      apply hfinal
      exact ⟨key, hkey, pre, post, a, a', heq, heq', .inr hshort.symm⟩

/-- Where a header without a frame follows a border, the section before it fails. -/
theorem not_repeats_of_framed (hg : (script.run out true ∅).Reachable g)
    (hc : g.Complete script.keys) (hown : OwnHeaders script out) (hframe : ¬ Unframed script out) :
    ¬ Repeats script out (_load_lst_file_db (lstFile script.keys g)) := by
  intro h
  obtain ⟨s, hs, hp, hlst⟩ := lst_load_of_framed hg hc hown hframe
  obtain ⟨b, hb, hcb⟩ := script.exists_complete out false
    (_load_lst_file_db (lstFile script.keys g))
  have hpos : 0 < s.texts.length := by
    rw [Loader.texts_of_printed hp, Header.lines]
    split <;> simp
  have hne : s.lines ≠ [] := by
    intro hnil
    rw [Section.texts, hnil] at hpos
    cases hpos
  have hpass := (h b hb hcb).1 _ ((compared_of_reachable hb).result hcb hs (.inl hne))
  rw [hlst] at hpass
  -- two lines are missing, and at most one is made up for
  rcases eq_of_passes hpass with heq | heq
  · have hlen := congrArg List.length heq
    rw [← Section.texts] at hlen
    simp only [List.length_dropLast] at hlen
    omega
  · have hlen := congrArg List.length heq
    rw [← Section.texts] at hlen
    simp only [List.length_append, List.length_dropLast, List.length_singleton] at hlen
    omega

/-- Where no recorded line reads as the header of another sector, compare runs agree with the
golden run exactly when no header without a frame follows a line that looks like the border of one,
and no sector ends with the mark of an empty output line. -/
theorem agrees_iff (script : Script) (out : Outputs) (hown : OwnHeaders script out) :
    Agrees script out ↔ Unframed script out ∧ Unmarked script out := by
  constructor
  · intro h
    obtain ⟨g, hg, hc⟩ := script.exists_complete out true ∅
    have hrepeats := (h g hg hc).1
    have hframe : Unframed script out := by
      by_contra hframe
      exact not_repeats_of_framed hg hc hown hframe hrepeats
    constructor
    · exact hframe
    · exact (repeats_of_lst (fun s hs => lst_load hg hc hown hframe hs)
        (mem_load hg hc hown)).mp hrepeats
  · intro ⟨hframe, hmark⟩ g hg hc
    have hlst := fun s hs => lst_load (s := s) hg hc hown hframe hs
    constructor
    · exact (repeats_of_lst hlst (mem_load hg hc hown)).mpr hmark
    · exact detects_of_lst hlst

/-- One line, a header, and another line. -/
def twoSectors : Script := ⟨[.line, .SECTOR ['1'] [], .line], by decide⟩

/-- The first line prints `first`, the second one `ready`. -/
def printing (first : Text) (h : '\n' ∉ first) : Outputs where
  lines _ i := if i = 2 then ['.' :: ' ' :: first] else if i = 4 then [". ready".toList] else []
  plain key i l hl := by
    split at hl
    · rw [List.mem_singleton.mp hl]
      simpa using h
    · split at hl
      · rw [List.mem_singleton.mp hl]
        decide
      · cases hl

/-- An ordinary line in front of the header. -/
theorem agrees_ordinary : Agrees twoSectors (printing "start".toList (by decide)) :=
  (agrees_iff twoSectors (printing "start".toList (by decide)) (by decide)).mpr
    ⟨by decide, by decide⟩

/-- The upper line of a table in front of the header: two lines change sectors. -/
theorem disagrees_border : ¬ ∀ script out, Agrees script out := by
  intro h
  obtain ⟨g, hg, hc⟩ := twoSectors.exists_complete (printing "+---+".toList (by decide)) true ∅
  exact not_repeats_of_framed hg hc (by decide) (by decide) (h _ _ g hg hc).1

end Theorem

end Natc.Harness.Golden
