import Mathlib.Logic.Function.Basic
import Natc.Lib.Lines

/-!
# The servers of `server.conf`

`ServerManager::load` reads sections of parameters, one for each server. It collects the parameters
of the section it is in, and stores them under the server whenever one is added.
-/

namespace Natc.Ats.ServerManager

open Lib

def LINE_BUFFER : Nat := 1024

/-- `ServerParam`: the parameters of a server. -/
abbrev ServerParam := Text → Option Text

/-- The variables of the loop over the characters, and whether `mSrvParam` has been cleared. -/
structure Scan where
  sServer : Text
  sName : Text
  sValue : Text
  sIsValue : Bool
  cleared : Bool
  deriving DecidableEq, Repr

/-- The loop over the characters from some place of the line on. -/
def scan (sBuffer : Text) : Text → Scan → Scan
  | [], s => s
  | c :: cs, s =>
      if c = ' ' ∨ c = '\n' ∨ c = '\t' then scan sBuffer cs s
      else if c = '#' then s
      else if c = '[' then
        -- the name is read from the second character of the line on, wherever the bracket is
        { s with
          sServer := (sBuffer.drop 1).takeWhile (· ≠ ']')
          cleared := (sBuffer.drop 1).any (· = ']') }
      else if c = '=' ∧ s.sValue = [] then scan sBuffer cs { s with sIsValue := true }
      else if s.sIsValue = false then scan sBuffer cs { s with sName := s.sName ++ [c] }
      else scan sBuffer cs { s with sValue := s.sValue ++ [c] }

/-- `sServer` with the members of the manager. -/
structure Servers where
  sServer : Text
  mSrvParam : ServerParam
  mSrvMap : Text → Option ServerParam

namespace Servers

def start : Servers := ⟨[], fun _ => none, fun _ => none⟩

/-- `mSrvParam[sName] = sValue; mSrvMap[sServer] = mSrvParam` -/
def store (s : Servers) (sName sValue : Text) : Servers :=
  { s with
    mSrvParam := Function.update s.mSrvParam sName (some sValue)
    mSrvMap := Function.update s.mSrvMap s.sServer
      (some (Function.update s.mSrvParam sName (some sValue))) }

/-- What is done with a line. -/
def readLine (s : Servers) (sBuffer : Text) : Servers :=
  let r := scan sBuffer sBuffer ⟨s.sServer, [], [], false, false⟩
  let s := { s with
    sServer := r.sServer
    mSrvParam := if r.cleared then fun _ => none else s.mSrvParam }
  if r.sName ≠ [] ∧ r.sServer ≠ [] then s.store r.sName r.sValue else s

/-- The parameter of a server. -/
def find (s : Servers) (server name : Text) : Option Text :=
  (s.mSrvMap server).bind fun param => param name

end Servers

/-- The lines that are read of a file. One that begins with a zero byte ends the reading. -/
def fileLines (content : Text) : List Text :=
  ((pieces (LINE_BUFFER - 1) content).map (·.takeWhile (· ≠ '\x00'))).takeWhile (· ≠ [])

/-- `load` of a file that can be opened. -/
def load (content : Text) : Servers :=
  (fileLines content).foldl Servers.readLine .start

/-! ## The files -/

/-- Blanks and tabs. -/
structure Gap where
  text : Text
  blank : ∀ c ∈ text, c = ' ' ∨ c = '\t'

/-- A section name, without the bracket that ends it. -/
structure ServerName where
  text : Text
  ne : text ≠ []
  clean : ∀ c ∈ text, c ≠ ']' ∧ c ≠ '\n' ∧ c ≠ '\x00'

/-- A parameter name, without white space and the characters that have a meaning in front of a
value. -/
structure Key where
  text : Text
  ne : text ≠ []
  clean : ∀ c ∈ text, c ≠ ' ' ∧ c ≠ '\t' ∧ c ≠ '\n' ∧ c ≠ '\x00' ∧ c ≠ '#' ∧ c ≠ '[' ∧ c ≠ '='

/-- A value, without white space around it. -/
structure Value where
  text : Text
  clean : ∀ c ∈ text, c ≠ '\n' ∧ c ≠ '\x00'
  first : ∀ c ∈ text.head?, c ≠ ' ' ∧ c ≠ '\t'
  last : ∀ c ∈ text.getLast?, c ≠ ' ' ∧ c ≠ '\t'

/-- The text of a comment. -/
structure Comment where
  text : Text
  clean : ∀ c ∈ text, c ≠ '\n' ∧ c ≠ '\x00'

inductive Item where
  | header (indent : Gap) (server : ServerName) (trail : Gap)
  | param (indent : Gap) (key : Key) (before after : Gap) (value : Value) (trail : Gap)
  | comment (indent : Gap) (text : Comment)
  | blank (indent : Gap)

namespace Item

/-- The line, without the newline that ends it. -/
def line : Item → Text
  | header indent server trail => indent.text ++ '[' :: server.text ++ ']' :: trail.text
  | param indent key before after value trail =>
      indent.text ++ key.text ++ before.text ++ '=' :: after.text ++ value.text ++ trail.text
  | comment indent text => indent.text ++ '#' :: text.text
  | blank indent => indent.text

end Item

/-- The text of some lines; the last one may lack its newline. -/
def fileText (items : List Item) (newline : Bool) : Text :=
  let content := items.flatMap fun item => item.line ++ ['\n']
  if newline then content else content.dropLast

/-- The section a line is in, and what the lines up to it say. -/
structure Sections where
  server : Text
  value : Text → ServerParam

/-- A parameter in front of all sections belongs to none. -/
def Sections.read (s : Sections) : Item → Sections
  | .header _ server _ => { s with server := server.text }
  | .param _ key _ _ value _ =>
      if s.server = [] then s
      else { s with
        value := Function.update s.value s.server
          (Function.update (s.value s.server) key.text (some value.text)) }
  | .comment _ _ => s
  | .blank _ => s

/-- What a file says: each section has the parameters of all its occurrences, and the last value
of each. -/
def denoted (items : List Item) : Text → ServerParam :=
  (items.foldl Sections.read ⟨[], fun _ _ => none⟩).value

/-- The load finds every parameter with its value, and no others. -/
def Right (items : List Item) (newline : Bool) : Prop :=
  ∀ server name, (load (fileText items newline)).find server name = denoted items server name

/-- No character of the value has a meaning of its own. -/
def PlainValue (value : Text) : Prop :=
  (∀ c ∈ value, c ≠ ' ' ∧ c ≠ '\t' ∧ c ≠ '#' ∧ c ≠ '[') ∧ value.head? ≠ some '='

/-- The line fits the buffer, a section name stands at its beginning, and a value is plain. -/
def Item.Plain (item : Item) : Prop :=
  item.line.length < LINE_BUFFER - 1 ∧
    match item with
    | .header indent _ _ => indent.text = []
    | .param _ _ _ _ value _ => PlainValue value.text
    | .comment _ _ => True
    | .blank _ => True

/-- The parameters in front of the first section, and the sections in their order. -/
def occurrences : List Item → List (Text × Text) × List (Text × List (Text × Text))
  | [] => ([], [])
  | .header _ server _ :: items =>
      ([], (server.text, (occurrences items).1) :: (occurrences items).2)
  | .param _ key _ _ value _ :: items =>
      ((key.text, value.text) :: (occurrences items).1, (occurrences items).2)
  | .comment _ _ :: items => occurrences items
  | .blank _ :: items => occurrences items

/-- The occurrences of a section that have parameters. -/
def occurrencesOf (items : List Item) (server : Text) : List (List (Text × Text)) :=
  ((occurrences items).2.filter fun o => o.1 = server ∧ o.2 ≠ []).map Prod.snd

/-- The last of these has every name that one of them has. -/
def LastHasAll (items : List Item) : Prop :=
  ∀ server, ∀ params ∈ occurrencesOf items server, ∀ name ∈ params.map Prod.fst,
    name ∈ ((occurrencesOf items server).getLast?.getD []).map Prod.fst

/-! ## Reading a line -/

section Scan

variable (sBuffer : Text)

theorem scan_gap {gap : Text} (h : ∀ c ∈ gap, c = ' ' ∨ c = '\n' ∨ c = '\t') (cs : Text)
    (s : Scan) : scan sBuffer (gap ++ cs) s = scan sBuffer cs s := by
  induction gap with
  | nil => rfl
  | cons c gap ih =>
    rw [List.cons_append, scan, if_pos (h c List.mem_cons_self)]
    exact ih fun d hd => h d (List.mem_cons_of_mem _ hd)

theorem Gap.skip (gap : Gap) (cs : Text) (s : Scan) :
    scan sBuffer (gap.text ++ cs) s = scan sBuffer cs s :=
  scan_gap sBuffer (fun c hc => (gap.blank c hc).imp_right Or.inr) cs s

theorem scan_end {s : Scan} {nl : Text} (hnl : ∀ c ∈ nl, c = '\n') :
    scan sBuffer nl s = s := by
  have h := scan_gap sBuffer (fun c hc => Or.inr (Or.inl (hnl c hc))) [] s
  rwa [List.append_nil] at h

theorem scan_key {key : Text} (h : ∀ c ∈ key, c ≠ ' ' ∧ c ≠ '\t' ∧ c ≠ '\n' ∧ c ≠ '\x00' ∧
    c ≠ '#' ∧ c ≠ '[' ∧ c ≠ '=') (cs : Text) {s : Scan} (hs : s.sIsValue = false) :
    scan sBuffer (key ++ cs) s = scan sBuffer cs { s with sName := s.sName ++ key } := by
  induction key generalizing s with
  | nil => rw [List.nil_append, List.append_nil]
  | cons c key ih =>
    obtain ⟨hblank, htab, hline, _, hsharp, hbracket, heq⟩ := h c List.mem_cons_self
    rw [List.cons_append, scan, if_neg (by simp [hblank, htab, hline]), if_neg hsharp,
      if_neg hbracket, if_neg (fun h => heq h.1), if_pos hs,
      ih (fun d hd => h d (List.mem_cons_of_mem _ hd)) (s := { s with sName := s.sName ++ [c] }) hs,
      List.append_assoc, List.singleton_append]

theorem scan_value {value : Text}
    (h : ∀ c ∈ value, c ≠ ' ' ∧ c ≠ '\t' ∧ c ≠ '\n' ∧ c ≠ '#' ∧ c ≠ '[') (cs : Text) {s : Scan}
    (hs : s.sIsValue = true) (hfirst : s.sValue ≠ [] ∨ value.head? ≠ some '=') :
    scan sBuffer (value ++ cs) s = scan sBuffer cs { s with sValue := s.sValue ++ value } := by
  induction value generalizing s with
  | nil => rw [List.nil_append, List.append_nil]
  | cons c value ih =>
    obtain ⟨hblank, htab, hline, hsharp, hbracket⟩ := h c List.mem_cons_self
    have heq : ¬(c = '=' ∧ s.sValue = []) := by
      rintro ⟨rfl, hempty⟩
      rcases hfirst with hne | hhead
      · exact hne hempty
      · exact hhead rfl
    have hvalue : ¬s.sIsValue = false := by rw [hs]; exact Bool.noConfusion
    rw [List.cons_append, scan, if_neg (by simp [hblank, htab, hline]), if_neg hsharp,
      if_neg hbracket, if_neg heq, if_neg hvalue,
      ih (fun d hd => h d (List.mem_cons_of_mem _ hd)) (s := { s with sValue := s.sValue ++ [c] })
        hs (Or.inl (List.append_ne_nil_of_right_ne_nil _ (List.cons_ne_nil c []))),
      List.append_assoc, List.singleton_append]

end Scan

/-- What a plain line does. -/
def Servers.apply (s : Servers) : Item → Servers
  | .header _ server _ => { s with sServer := server.text, mSrvParam := fun _ => none }
  | .param _ key _ _ value _ => if s.sServer = [] then s else s.store key.text value.text
  | .comment _ _ => s
  | .blank _ => s

theorem readLine_header {indent trail : Gap} {server : ServerName} (hindent : indent.text = [])
    (nl : Text) (s : Servers) :
    s.readLine ((Item.header indent server trail).line ++ nl) =
      s.apply (.header indent server trail) := by
  have hline : (Item.header indent server trail).line ++ nl =
      '[' :: (server.text ++ ']' :: (trail.text ++ nl)) := by
    simp [Item.line, hindent]
  have hname : ∀ c ∈ server.text, decide (c ≠ ']') = true :=
    fun c hc => decide_eq_true (server.clean c hc).1
  have htake : (server.text ++ ']' :: (trail.text ++ nl)).takeWhile (· ≠ ']') = server.text := by
    rw [List.takeWhile_append_of_pos hname, List.takeWhile_cons_of_neg (by simp), List.append_nil]
  have hclose : (server.text ++ ']' :: (trail.text ++ nl)).any (· = ']') = true := by
    rw [List.any_append, List.any_cons]
    simp
  have hscan : ∀ sBuffer, sBuffer = '[' :: (server.text ++ ']' :: (trail.text ++ nl)) →
      scan sBuffer sBuffer ⟨s.sServer, [], [], false, false⟩ =
        ⟨server.text, [], [], false, true⟩ := by
    rintro sBuffer rfl
    rw [scan, if_neg (by decide), if_neg (by decide), if_pos rfl]
    simp only [List.drop_succ_cons, List.drop_zero, htake, hclose]
  unfold Servers.readLine
  rw [hscan _ hline]
  rfl

/-- A line of a parameter, whose value has no character with a meaning of its own. -/
theorem readLine_param {indent before after trail : Gap} {key : Key} {value : Value}
    (hplain : PlainValue value.text) {nl : Text} (hnl : ∀ c ∈ nl, c = '\n') (s : Servers) :
    s.readLine ((Item.param indent key before after value trail).line ++ nl) =
      s.apply (.param indent key before after value trail) := by
  have hvalue : ∀ c ∈ value.text, c ≠ ' ' ∧ c ≠ '\t' ∧ c ≠ '\n' ∧ c ≠ '#' ∧ c ≠ '[' := by
    intro c hc
    obtain ⟨hblank, htab, hsharp, hbracket⟩ := hplain.1 c hc
    exact ⟨hblank, htab, (value.clean c hc).1, hsharp, hbracket⟩
  have hscan : ∀ sBuffer, scan sBuffer ((Item.param indent key before after value trail).line ++ nl)
      ⟨s.sServer, [], [], false, false⟩ = ⟨s.sServer, key.text, value.text, true, false⟩ := by
    intro sBuffer
    simp only [Item.line, List.append_assoc, List.cons_append]
    rw [Gap.skip, scan_key sBuffer key.clean _ rfl, Gap.skip, scan, if_neg (by decide),
      if_neg (by decide), if_neg (by decide), if_pos ⟨rfl, rfl⟩, Gap.skip,
      scan_value sBuffer hvalue _ rfl (Or.inr hplain.2), Gap.skip, scan_end sBuffer hnl]
    rfl
  unfold Servers.readLine
  rw [hscan]
  dsimp only
  by_cases hserver : s.sServer = []
  · rw [if_neg (fun h => h.2 hserver), Servers.apply, if_pos hserver]
    rfl
  · rw [if_pos ⟨key.ne, hserver⟩, Servers.apply, if_neg hserver]
    rfl

theorem readLine_comment (indent : Gap) (text : Comment) (nl : Text) (s : Servers) :
    s.readLine ((Item.comment indent text).line ++ nl) = s := by
  have hscan : ∀ sBuffer, scan sBuffer ((Item.comment indent text).line ++ nl)
      ⟨s.sServer, [], [], false, false⟩ = ⟨s.sServer, [], [], false, false⟩ := by
    intro sBuffer
    simp only [Item.line, List.append_assoc, List.cons_append]
    rw [Gap.skip, scan, if_neg (by decide), if_pos rfl]
  unfold Servers.readLine
  rw [hscan]
  rfl

theorem readLine_blank (indent : Gap) {nl : Text} (hnl : ∀ c ∈ nl, c = '\n') (s : Servers) :
    s.readLine ((Item.blank indent).line ++ nl) = s := by
  have hscan : ∀ sBuffer, scan sBuffer ((Item.blank indent).line ++ nl)
      ⟨s.sServer, [], [], false, false⟩ = ⟨s.sServer, [], [], false, false⟩ := by
    intro sBuffer
    show scan sBuffer (indent.text ++ nl) _ = _
    rw [Gap.skip, scan_end sBuffer hnl]
  unfold Servers.readLine
  rw [hscan]
  rfl

theorem readLine_plain {item : Item} (h : item.Plain) {nl : Text} (hnl : ∀ c ∈ nl, c = '\n')
    (s : Servers) : s.readLine (item.line ++ nl) = s.apply item := by
  cases item with
  | header indent server trail => exact readLine_header h.2 nl s
  | param indent key before after value trail => exact readLine_param h.2 hnl s
  | comment indent text => exact readLine_comment indent text nl s
  | blank indent => exact readLine_blank indent hnl s

/-! ## Reading a file -/

theorem Gap.clean (gap : Gap) : '\n' ∉ gap.text ∧ '\x00' ∉ gap.text := by
  constructor
  · intro h
    exact absurd (gap.blank _ h) (by decide)
  · intro h
    exact absurd (gap.blank _ h) (by decide)

theorem Item.clean (item : Item) : '\n' ∉ item.line ∧ '\x00' ∉ item.line := by
  cases item with
  | header indent server trail =>
    have hserver (c : Char) (hc : c ∈ server.text) := server.clean c hc
    have hindent := indent.clean
    have htrail := trail.clean
    simp only [Item.line, List.mem_append, List.mem_cons, not_or]
    exact ⟨⟨⟨hindent.1, by decide, fun h => (hserver _ h).2.1 rfl⟩, by decide, htrail.1⟩,
      ⟨hindent.2, by decide, fun h => (hserver _ h).2.2 rfl⟩, by decide, htrail.2⟩
  | param indent key before after value trail =>
    have hkey (c : Char) (hc : c ∈ key.text) := key.clean c hc
    have hvalue (c : Char) (hc : c ∈ value.text) := value.clean c hc
    simp only [Item.line, List.mem_append, List.mem_cons, not_or]
    exact ⟨⟨⟨⟨⟨⟨indent.clean.1, fun h => (hkey _ h).2.2.1 rfl⟩, before.clean.1⟩, by decide,
      after.clean.1⟩, fun h => (hvalue _ h).1 rfl⟩, trail.clean.1⟩,
      ⟨⟨⟨⟨indent.clean.2, fun h => (hkey _ h).2.2.2.1 rfl⟩, before.clean.2⟩, by decide,
        after.clean.2⟩, fun h => (hvalue _ h).2 rfl⟩, trail.clean.2⟩
  | comment indent text =>
    have htext (c : Char) (hc : c ∈ text.text) := text.clean c hc
    simp only [Item.line, List.mem_append, List.mem_cons, not_or]
    exact ⟨⟨indent.clean.1, by decide, fun h => (htext _ h).1 rfl⟩,
      indent.clean.2, by decide, fun h => (htext _ h).2 rfl⟩
  | blank indent => exact indent.clean

theorem foldl_readLine {items : List Item} (h : ∀ item ∈ items, item.Plain) (s : Servers) :
    ((items.map Item.line).map fun l => l ++ ['\n']).foldl Servers.readLine s =
      items.foldl Servers.apply s := by
  induction items generalizing s with
  | nil => rfl
  | cons item items ih =>
    rw [List.map_cons, List.map_cons, List.foldl_cons, List.foldl_cons,
      readLine_plain (h item List.mem_cons_self) (fun c hc => List.mem_singleton.mp hc)]
    exact ih (fun i hi => h i (List.mem_cons_of_mem _ hi)) _

/-- An empty line says nothing. -/
theorem apply_empty {item : Item} (h : item.line = []) (s : Servers) : s.apply item = s := by
  cases item with
  | header indent server trail => simp [Item.line] at h
  | param indent key before after value trail => simp [Item.line] at h
  | comment indent text => rfl
  | blank indent => rfl

/-- Plain lines do what they say, one after the other. -/
theorem load_plain {items : List Item} (h : ∀ item ∈ items, item.Plain) (newline : Bool) :
    load (fileText items newline) = items.foldl Servers.apply .start := by
  have hgood : ∀ l ∈ items.map Item.line,
      '\n' ∉ l ∧ '\x00' ∉ l ∧ l.length < LINE_BUFFER - 1 := by
    intro l hl
    obtain ⟨item, hitem, rfl⟩ := List.mem_map.mp hl
    exact ⟨item.clean.1, item.clean.2, (h item hitem).1⟩
  have htext : (items.flatMap fun item => item.line ++ ['\n']) =
      ((items.map Item.line).flatMap fun l => l ++ ['\n']) ++ [] := by
    rw [List.append_nil, List.flatMap_map]
  cases newline with
  | true =>
    show (fileLines (items.flatMap fun item => item.line ++ ['\n'])).foldl _ _ = _
    rw [htext, fileLines, strings_written hgood (by decide), if_pos rfl, List.append_nil]
    exact foldl_readLine h _
  | false =>
    show (fileLines (items.flatMap fun item => item.line ++ ['\n']).dropLast).foldl _ _ = _
    rcases List.eq_nil_or_concat' items with rfl | ⟨before, last, rfl⟩
    · rfl
    · have hcut : ((before ++ [last]).flatMap fun item => item.line ++ ['\n']).dropLast =
          ((before.map Item.line).flatMap fun l => l ++ ['\n']) ++ last.line := by
        rw [List.flatMap_append, List.flatMap_cons, List.flatMap_nil, List.append_nil,
          ← List.append_assoc, List.dropLast_concat, List.flatMap_map]
      have hbefore : ∀ item ∈ before, item.Plain :=
        fun item hitem => h item (List.mem_append_left _ hitem)
      have hlast := h last (List.mem_append_right _ List.mem_cons_self)
      rw [hcut, fileLines, strings_written
        (fun l hl => hgood l (by rw [List.map_append]; exact List.mem_append_left _ hl))
        ⟨last.clean.1, last.clean.2, hlast.1⟩, List.foldl_append, foldl_readLine hbefore,
        List.foldl_append]
      by_cases hempty : last.line = []
      · rw [if_pos hempty]
        exact (apply_empty hempty _).symm
      · rw [if_neg hempty]
        have hread := readLine_plain hlast (fun c hc => absurd hc List.not_mem_nil)
          (before.foldl Servers.apply .start)
        rwa [List.append_nil] at hread

/-! ## Sections and their occurrences -/

/-- The parameters of an occurrence on top of others. -/
def setAll (param : ServerParam) (params : List (Text × Text)) : ServerParam :=
  params.foldl (fun param kv => Function.update param kv.1 (some kv.2)) param

theorem setAll_cons (param : ServerParam) (kv : Text × Text) (params : List (Text × Text)) :
    setAll param (kv :: params) = setAll (Function.update param kv.1 (some kv.2)) params := rfl

theorem setAll_append (param : ServerParam) (first second : List (Text × Text)) :
    setAll param (first ++ second) = setAll (setAll param first) second :=
  List.foldl_append

theorem setAll_not_mem {params : List (Text × Text)} {name : Text}
    (h : name ∉ params.map Prod.fst) (param : ServerParam) : setAll param params name = param name := by
  induction params generalizing param with
  | nil => rfl
  | cons kv params ih =>
    rw [List.map_cons, List.mem_cons, not_or] at h
    rw [setAll_cons, ih h.2, Function.update_of_ne h.1]

/-- A name that is set has the value it is given there. -/
theorem setAll_mem {params : List (Text × Text)} {name : Text}
    (h : name ∈ params.map Prod.fst) :
    ∃ value, ∀ param : ServerParam, setAll param params name = some value := by
  induction params with
  | nil => cases h
  | cons kv params ih =>
    by_cases hlater : name ∈ params.map Prod.fst
    · obtain ⟨value, hvalue⟩ := ih hlater
      exact ⟨value, fun param => hvalue _⟩
    · rcases List.mem_cons.mp h with rfl | h
      · refine ⟨kv.2, fun param => ?_⟩
        rw [setAll_cons, setAll_not_mem hlater, Function.update_self]
      · exact absurd h hlater

/-- The parameters that are left when each occurrence replaces the one before it. -/
def lastOf (before : Option ServerParam) (os : List (List (Text × Text))) : Option ServerParam :=
  os.foldl (fun _ params => some (setAll (fun _ => none) params)) before

theorem occurrencesOf_header (indent trail : Gap) (srv : ServerName) (items : List Item)
    (server : Text) :
    occurrencesOf (.header indent srv trail :: items) server =
      if srv.text = server ∧ (occurrences items).1 ≠ [] then
        (occurrences items).1 :: occurrencesOf items server
      else occurrencesOf items server := by
  unfold occurrencesOf
  rw [occurrences, List.filter_cons]
  by_cases h : srv.text = server ∧ (occurrences items).1 ≠ []
  · rw [if_pos (decide_eq_true h), if_pos h, List.map_cons]
  · rw [if_neg (fun hd => h (of_decide_eq_true hd)), if_neg h]

/-- What is stored for a section when the parameters up to the next header have been read. -/
def Servers.after (s : Servers) (server : Text) (params : List (Text × Text)) :
    Option ServerParam :=
  if s.sServer = server ∧ server ≠ [] ∧ params ≠ [] then some (setAll s.mSrvParam params)
  else s.mSrvMap server

theorem Servers.after_nil (s : Servers) (server : Text) : s.after server [] = s.mSrvMap server :=
  if_neg fun h => h.2.2 rfl

theorem Servers.after_header (map : Text → Option ServerParam) (srv : ServerName) (server : Text)
    (params : List (Text × Text)) :
    Servers.after ⟨srv.text, fun _ => none, map⟩ server params =
      if srv.text = server ∧ params ≠ [] then some (setAll (fun _ => none) params)
      else map server := by
  unfold Servers.after
  by_cases hhere : srv.text = server ∧ params ≠ []
  · have hne : server ≠ [] := hhere.1 ▸ srv.ne
    rw [if_pos hhere]
    exact if_pos ⟨hhere.1, hne, hhere.2⟩
  · rw [if_neg hhere]
    exact if_neg fun h => hhere ⟨h.1, h.2.2⟩

theorem Servers.after_param (s : Servers) (server name value : Text)
    (params : List (Text × Text)) :
    Servers.after (if s.sServer = [] then s else s.store name value) server params =
      s.after server ((name, value) :: params) := by
  by_cases hout : s.sServer = []
  · have hother : ∀ P : Prop, ¬(s.sServer = server ∧ server ≠ [] ∧ P) := by
      rintro P ⟨rfl, hne, _⟩
      exact hne hout
    rw [if_pos hout, Servers.after, Servers.after, if_neg (hother _), if_neg (hother _)]
  · rw [if_neg hout]
    unfold Servers.after
    show (if s.sServer = server ∧ server ≠ [] ∧ params ≠ [] then _
      else Function.update s.mSrvMap s.sServer _ server) = _
    by_cases hserver : s.sServer = server
    · have hne : server ≠ [] := hserver ▸ hout
      rw [if_pos (c := _ ∧ _ ∧ (name, value) :: params ≠ []) ⟨hserver, hne, List.cons_ne_nil _ _⟩]
      by_cases hrest : params = []
      · rw [if_neg (fun h => h.2.2 hrest), hserver, Function.update_self, hrest]
        rfl
      · exact if_pos ⟨hserver, hne, hrest⟩
    · rw [if_neg (fun h => hserver h.1), if_neg (fun h => hserver h.1)]
      exact Function.update_of_ne (Ne.symm hserver) _ _

/-- The load replaces the parameters of a section at each of its occurrences that has some. -/
theorem foldl_apply (items : List Item) (s : Servers) (server : Text) :
    (items.foldl Servers.apply s).mSrvMap server =
      lastOf (s.after server (occurrences items).1) (occurrencesOf items server) := by
  induction items generalizing s with
  | nil => exact (s.after_nil server).symm
  | cons item items ih =>
    rw [List.foldl_cons, ih]
    cases item with
    | header indent srv trail =>
      rw [occurrencesOf_header, occurrences, Servers.after_nil, Servers.apply,
        Servers.after_header]
      by_cases hhere : srv.text = server ∧ (occurrences items).1 ≠ []
      · rw [if_pos hhere, if_pos hhere]
        rfl
      · rw [if_neg hhere, if_neg hhere]
    | param indent key before after value trail =>
      rw [Servers.apply, Servers.after_param]
      rfl
    | comment indent text => rfl
    | blank indent => rfl

/-- The parameters that a section is to have when those up to the next header have been read. -/
def Sections.after (s : Sections) (server : Text) (params : List (Text × Text)) : ServerParam :=
  if s.server = server ∧ server ≠ [] then setAll (s.value server) params else s.value server

theorem Sections.after_nil (s : Sections) (server : Text) : s.after server [] = s.value server :=
  ite_self _

theorem Sections.after_header (table : Text → ServerParam) (srv : ServerName) (server : Text)
    (params : List (Text × Text)) :
    Sections.after ⟨srv.text, table⟩ server params =
      if srv.text = server then setAll (table server) params else table server := by
  unfold Sections.after
  by_cases hserver : srv.text = server
  · have hne : server ≠ [] := hserver ▸ srv.ne
    rw [if_pos hserver]
    exact if_pos ⟨hserver, hne⟩
  · rw [if_neg hserver]
    exact if_neg fun h => hserver h.1

theorem Sections.after_param (s : Sections) (indent before after trail : Gap) (key : Key)
    (value : Value) (server : Text) (params : List (Text × Text)) :
    (s.read (.param indent key before after value trail)).after server params =
      s.after server ((key.text, value.text) :: params) := by
  rw [Sections.read]
  by_cases hout : s.server = []
  · have hother : ¬(s.server = server ∧ server ≠ []) := by
      rintro ⟨rfl, hne⟩
      exact hne hout
    rw [if_pos hout, Sections.after, Sections.after, if_neg hother, if_neg hother]
  · rw [if_neg hout]
    unfold Sections.after
    by_cases hserver : s.server = server
    · have hne : server ≠ [] := hserver ▸ hout
      rw [if_pos ⟨hserver, hne⟩, if_pos ⟨hserver, hne⟩, setAll_cons, hserver]
      show setAll (Function.update s.value server _ server) params = _
      rw [Function.update_self]
    · rw [if_neg (fun h => hserver h.1), if_neg (fun h => hserver h.1)]
      exact Function.update_of_ne (Ne.symm hserver) _ _

/-- What a section has according to the file: all the parameters of its occurrences. -/
theorem foldl_read (items : List Item) (s : Sections) (server : Text) :
    (items.foldl Sections.read s).value server =
      setAll (s.after server (occurrences items).1) (occurrencesOf items server).flatten := by
  induction items generalizing s with
  | nil => exact (s.after_nil server).symm
  | cons item items ih =>
    rw [List.foldl_cons, ih]
    cases item with
    | header indent srv trail =>
      rw [occurrencesOf_header, occurrences, Sections.after_nil, Sections.read,
        Sections.after_header]
      by_cases hserver : srv.text = server
      · rw [if_pos hserver]
        by_cases hps : (occurrences items).1 ≠ []
        · rw [if_pos ⟨hserver, hps⟩, List.flatten_cons, setAll_append]
        · rw [if_neg (fun h => hps h.2), not_ne_iff.mp hps]
          rfl
      · rw [if_neg hserver, if_neg (fun h => hserver h.1)]
    | param indent key before after value trail =>
      rw [Sections.after_param]
      rfl
    | comment indent text => rfl
    | blank indent => rfl

theorem scan_plain (sBuffer cs : Text) {s : Scan} (hs : PlainValue s.sValue) :
    PlainValue (scan sBuffer cs s).sValue := by
  induction cs generalizing s with
  | nil => exact hs
  | cons c cs ih =>
    rw [scan]
    by_cases hgap : c = ' ' ∨ c = '\n' ∨ c = '\t'
    · rw [if_pos hgap]
      exact ih hs
    · rw [if_neg hgap]
      by_cases hsharp : c = '#'
      · rw [if_pos hsharp]
        exact hs
      · rw [if_neg hsharp]
        by_cases hbracket : c = '['
        · rw [if_pos hbracket]
          exact hs
        · rw [if_neg hbracket]
          by_cases heq : c = '=' ∧ s.sValue = []
          · rw [if_pos heq]
            exact ih hs
          · rw [if_neg heq]
            by_cases hname : s.sIsValue = false
            · rw [if_pos hname]
              exact ih hs
            · rw [if_neg hname]
              refine ih ⟨fun d hd => ?_, ?_⟩
              · rcases List.mem_append.mp hd with hd | hd
                · exact hs.1 d hd
                · rw [List.mem_singleton.mp hd]
                  exact ⟨fun h => hgap (Or.inl h), fun h => hgap (Or.inr (Or.inr h)), hsharp,
                    hbracket⟩
              · show (s.sValue ++ [c]).head? ≠ some '='
                cases hvalue : s.sValue with
                | nil =>
                  intro hhead
                  exact heq ⟨Option.some.inj hhead, hvalue⟩
                | cons d rest =>
                  have hfirst := hs.2
                  rw [hvalue] at hfirst
                  exact hfirst

/-- Every value that is stored is plain. -/
structure Servers.Plain (s : Servers) : Prop where
  mSrvParam : ∀ name value, s.mSrvParam name = some value → PlainValue value
  mSrvMap : ∀ server name value, s.find server name = some value → PlainValue value

theorem Servers.Plain.readLine {s : Servers} (h : s.Plain) (sBuffer : Text) :
    (s.readLine sBuffer).Plain := by
  have hvalue : PlainValue (scan sBuffer sBuffer ⟨s.sServer, [], [], false, false⟩).sValue :=
    scan_plain sBuffer sBuffer ⟨fun c hc => absurd hc List.not_mem_nil, fun h => by cases h⟩
  unfold Servers.readLine
  generalize scan sBuffer sBuffer ⟨s.sServer, [], [], false, false⟩ = r at hvalue ⊢
  have hparam : ∀ name value, (if r.cleared then fun _ => none else s.mSrvParam) name =
      some value → PlainValue value := by
    intro name value hname
    cases hcleared : r.cleared with
    | true =>
      rw [hcleared] at hname
      cases hname
    | false =>
      rw [hcleared] at hname
      exact h.mSrvParam name value hname
  have hstored : ∀ name value, Function.update (if r.cleared then fun _ => none else s.mSrvParam)
      r.sName (some r.sValue) name = some value → PlainValue value := by
    intro name value hname
    by_cases hnew : name = r.sName
    · rw [hnew, Function.update_self] at hname
      cases hname
      exact hvalue
    · rw [Function.update_of_ne hnew] at hname
      exact hparam name value hname
  dsimp only
  by_cases hstore : r.sName ≠ [] ∧ r.sServer ≠ []
  · rw [if_pos hstore]
    refine ⟨hstored, fun server name value hfind => ?_⟩
    change (Function.update s.mSrvMap r.sServer _ server).bind _ = _ at hfind
    by_cases hserver : server = r.sServer
    · rw [hserver, Function.update_self] at hfind
      exact hstored name value hfind
    · rw [Function.update_of_ne hserver] at hfind
      exact h.mSrvMap server name value hfind
  · rw [if_neg hstore]
    exact ⟨hparam, h.mSrvMap⟩

theorem load_plainValue (content : Text) : (load content).Plain := by
  have hrun : ∀ (lines : List Text) (s : Servers), s.Plain →
      (lines.foldl Servers.readLine s).Plain := by
    intro lines
    induction lines with
    | nil => exact fun s h => h
    | cons line lines ih => exact fun s h => ih _ (h.readLine line)
  refine hrun _ _ ⟨fun name value h => ?_, fun server name value h => ?_⟩
  · cases h
  · cases h

/-- When every line is plain, the load is right exactly if the last occurrence of each section
that has parameters has all the names of the section. -/
theorem right_iff_of_plain {items : List Item} (newline : Bool) (h : ∀ item ∈ items, item.Plain) :
    Right items newline ↔ LastHasAll items := by
  have hload (server : Text) : (load (fileText items newline)).mSrvMap server =
      lastOf none (occurrencesOf items server) := by
    rw [load_plain h, foldl_apply]
    exact congrArg (lastOf · _) (if_neg fun hstart => hstart.2.1 hstart.1.symm)
  have hdenoted (server : Text) : denoted items server =
      setAll (fun _ => none) (occurrencesOf items server).flatten := by
    unfold denoted
    rw [foldl_read]
    exact congrArg (setAll · _) (if_neg fun hstart => hstart.2 hstart.1.symm)
  refine forall_congr' fun server => ?_
  unfold Servers.find
  rw [hload, hdenoted]
  rcases List.eq_nil_or_concat' (occurrencesOf items server) with hnone | ⟨before, last, hos⟩
  · rw [hnone]
    exact ⟨fun _ params hparams => absurd hparams List.not_mem_nil, fun _ name => rfl⟩
  · have hflat (name : Text) : name ∈ before.flatten.map Prod.fst ↔
        ∃ params ∈ before, name ∈ params.map Prod.fst := by
      simp only [List.mem_map, List.mem_flatten]
      constructor
      · rintro ⟨kv, ⟨params, hparams, hkv⟩, rfl⟩
        exact ⟨params, hparams, kv, hkv, rfl⟩
      · rintro ⟨params, hparams, kv, hkv, rfl⟩
        exact ⟨kv, ⟨params, hparams, hkv⟩, rfl⟩
    rw [hos, List.getLast?_concat, List.flatten_concat, setAll_append, lastOf, List.foldl_concat]
    show (∀ name, setAll (fun _ => none) last name =
      setAll (setAll (fun _ => none) before.flatten) last name) ↔ _
    constructor
    · intro hsame params hparams name hname
      show name ∈ last.map Prod.fst
      by_contra hlast
      have hbefore : params ∈ before := by
        rcases List.mem_append.mp hparams with hbefore | hself
        · exact hbefore
        · rw [List.mem_singleton.mp hself] at hname
          exact absurd hname hlast
      obtain ⟨value, hvalue⟩ := setAll_mem ((hflat name).mpr ⟨params, hbefore, hname⟩)
      have heq := hsame name
      rw [setAll_not_mem hlast, setAll_not_mem hlast, hvalue] at heq
      cases heq
    · intro hall name
      by_cases hlast : name ∈ last.map Prod.fst
      · obtain ⟨value, hvalue⟩ := setAll_mem hlast
        rw [hvalue, hvalue]
      · have hbefore : name ∉ before.flatten.map Prod.fst := by
          intro hmem
          obtain ⟨params, hparams, hname⟩ := (hflat name).mp hmem
          exact hlast (hall params (List.mem_append_left _ hparams) name hname)
        rw [setAll_not_mem hlast, setAll_not_mem hlast, setAll_not_mem hbefore]

/-- With plain lines the load is right exactly if no section loses names by being opened again;
and it is never right about a value that is not plain. -/
theorem load_right_iff (items : List Item) (newline : Bool) :
    ((∀ item ∈ items, item.Plain) → (Right items newline ↔ LastHasAll items)) ∧
      (Right items newline →
        ∀ server name value, denoted items server name = some value → PlainValue value) := by
  refine ⟨right_iff_of_plain newline, fun hright server name value hvalue => ?_⟩
  rw [← hright server name] at hvalue
  exact (load_plainValue _).mSrvMap server name value hvalue

section Example

def noGap : Gap := ⟨[], List.forall_mem_nil _⟩

def sectionA : ServerName :=
  ⟨['A'], List.cons_ne_nil _ _, List.forall_mem_singleton.mpr (by decide)⟩

def value (c : Char) (h : c ≠ '\n' ∧ c ≠ '\x00') (hblank : c ≠ ' ' ∧ c ≠ '\t') : Value :=
  ⟨[c], List.forall_mem_singleton.mpr h, fun _ heq => Option.some.inj heq ▸ hblank,
    fun _ heq => Option.some.inj heq ▸ hblank⟩

/-- `[A]`, `x=1`, `[A]`, `y=2` -/
def openedTwice : List Item :=
  [.header noGap sectionA noGap,
    .param noGap ⟨['x'], List.cons_ne_nil _ _, List.forall_mem_singleton.mpr (by decide)⟩ noGap
      noGap (value '1' (by decide) (by decide)) noGap,
    .header noGap sectionA noGap,
    .param noGap ⟨['y'], List.cons_ne_nil _ _, List.forall_mem_singleton.mpr (by decide)⟩ noGap
      noGap (value '2' (by decide) (by decide)) noGap]

/-- The second occurrence of the section replaces the first one. -/
theorem section_replaced :
    ¬∀ (items : List Item) (newline : Bool), Right items newline := by
  intro h
  have hfirst := h openedTwice true ['A'] ['x']
  have hlost : (load (fileText openedTwice true)).find ['A'] ['x'] = none := by decide
  have hsaid : denoted openedTwice ['A'] ['x'] = some ['1'] := by decide
  rw [hlost, hsaid] at hfirst
  cases hfirst

end Example

end Natc.Ats.ServerManager
