import Natc.Suite.CaseManager

/-!
# Server groups

A platform file lists the servers of a group behind its name, one group a line. `load` reads it into
a list of addresses for each group, and `contains` looks for the own address in the list of one.
-/

namespace Natc.Suite.PlatformManager

open Lib

def ITEM_SIZE : Nat := 1024

/-- `sGroup` and `sServer` behind the loop over the characters of a line. `sValuePos` says whether
the colon is passed. -/
def scan (sValuePos : Bool) (sGroup : Text) : Text → Text × Text
  | [] => (sGroup, [])
  | c :: cs =>
      if c = ' ' then scan sValuePos sGroup cs
      else if c = '\n' ∨ c = '#' then (sGroup, [])
      else if c = ':' then scan true sGroup cs
      else if sValuePos = false then scan sValuePos (sGroup ++ [c]) cs
      else (sGroup, (c :: cs).takeWhile (· ≠ '#'))

/-- The text in an array of characters. -/
def string (array : Text) : Text := array.takeWhile (· ≠ '\x00')

structure Groups where
  sTmp : Text
  mList : List Text
  mPlatformList : Text → Option (List Text)

section Load

-- the text of the first address that is found for a name, as `inet_ntop` writes it
variable (gethostbyname : Text → Option Text)

/-- What is done with `sTmp` at a blank or at the last character of `sServer`. -/
def Groups.push (sGroup : Text) (sBufIndex : Nat) (s : Groups) : Groups :=
  let pushed :=
    if (string s.sTmp).any (· = '.') = true then [string s.sTmp, []]
    else
      let sIp := (gethostbyname (string (s.sTmp.set sBufIndex '\x00'))).getD []
      [sIp, sIp]
  ⟨List.replicate ITEM_SIZE '\x00', s.mList ++ pushed, fun g =>
    if g = sGroup then some (s.mList ++ pushed) else s.mPlatformList g⟩

/-- The loop over `sServer`. -/
def servers (sGroup : Text) (sValuePos : Nat) : Nat → Nat → Text → Groups → Groups
  | _, _, [], s => s
  | sBufIndex, sBufIndex2, c :: cs, s =>
      if c = ' ' ∨ sBufIndex = sValuePos then
        servers sGroup sValuePos (sBufIndex + 1) 0 cs (s.push gethostbyname sGroup sBufIndex)
      else
        servers sGroup sValuePos (sBufIndex + 1) (sBufIndex2 + 1) cs
          { s with sTmp := s.sTmp.set sBufIndex2 c }

def readLine (s : Groups) (sBuffer : Text) : Groups :=
  let sGroup := (scan false [] sBuffer).1
  let sServer := (scan false [] sBuffer).2
  if 0 < sServer.length then
    servers gethostbyname sGroup (sServer.length - 1) 0 0 sServer { s with mList := [] }
  else { s with mList := [] }

/-- Nothing is written into `sTmp` before the first line is read. -/
def load (sTmp content : Text) : Text → Option (List Text) :=
  ((fileLines content).foldl (readLine gethostbyname) ⟨sTmp, [], fun _ => none⟩).mPlatformList

end Load

/-- `localIP` is the own address as `inet_ntoa` writes it. -/
def contains (mPlatformList : Text → Option (List Text)) (localIP aPlatGroup : Text) : Bool :=
  match mPlatformList aPlatGroup with
  | some list => list.any (· = localIP)
  | none => false

/-! ## Platform files -/

/-- A name lookup. The empty name is the name of no server. -/
structure Resolver where
  gethostbyname : Text → Option Text
  empty : gethostbyname [] = none

/-- The address a word stands for: an address or a name with dots is taken as it is. -/
def Resolver.address (r : Resolver) (word : Text) : Text :=
  if word.any (· = '.') = true then word else (r.gethostbyname word).getD []

/-- The name of a group or of a server, or an address. -/
structure Word where
  text : Text
  ne : text ≠ []
  clean : ∀ c ∈ text, c ≠ ' ' ∧ c ≠ '\t' ∧ c ≠ ':' ∧ c ≠ '#' ∧ c ≠ '\n' ∧ c ≠ '\x00'

structure Remark where
  text : Text
  clean : ∀ c ∈ text, c ≠ '\n' ∧ c ≠ '\x00'

/-- A group with its servers. A server that is not the last is followed by a blank and `gap` more;
the numbers of blanks between the other parts are given as well. -/
structure Entry where
  lead : Nat
  group : Word
  before : Nat
  behind : Nat
  servers : List (Word × Nat)
  last : Word
  trail : Nat
  remark : Option Remark

inductive Item where
  | entry (e : Entry)
  | bare (lead : Nat) (group : Word) (before behind : Nat) (remark : Option Remark)
  | remark (lead : Nat) (text : Option Remark)

def blanks (n : Nat) : Text := List.replicate n ' '

def remarkText : Option Remark → Text
  | none => []
  | some remark => '#' :: remark.text

namespace Entry

variable (e : Entry)

/-- The servers with the blanks around them. -/
def list : Text :=
  (e.servers.flatMap fun w => w.1.text ++ ' ' :: blanks w.2) ++ (e.last.text ++ blanks e.trail)

def text : Text :=
  blanks e.lead ++ (e.group.text ++ (blanks e.before ++ ':' :: (blanks e.behind ++
    (e.list ++ remarkText e.remark))))

def words : List Text := (e.servers.map fun w => w.1.text) ++ [e.last.text]

end Entry

def Item.text : Item → Text
  | entry e => e.text
  | bare lead group before behind comment =>
      blanks lead ++ (group.text ++ (blanks before ++ ':' :: (blanks behind ++ remarkText comment)))
  | remark lead comment => blanks lead ++ remarkText comment

/-- Behind the last server stands a blank or the newline. -/
def Entry.Terminated (e : Entry) (newline : Bool) : Prop :=
  e.trail ≠ 0 ∨ e.remark = none ∧ newline = true

instance (e : Entry) (newline : Bool) : Decidable (e.Terminated newline) :=
  inferInstanceAs (Decidable (_ ∨ _ ∧ _))

/-- The last server without its last character, unless it is terminated. -/
def Entry.lastRead (e : Entry) (newline : Bool) : Text :=
  if e.Terminated newline then e.last.text else e.last.text.dropLast

def Entry.read (e : Entry) (newline : Bool) : List Text :=
  (e.servers.map fun w => w.1.text) ++ [e.lastRead newline]

/-- A file: the lines that end with a newline, and perhaps a last one that does not. -/
structure File where
  items : List Item
  last : Option Item

namespace File

variable (f : File)

def text : Text :=
  (f.items.flatMap fun item => item.text ++ ['\n']) ++ (f.last.map Item.text).getD []

/-- The lines, with a sign that they end with a newline. -/
def lines : List (Item × Bool) :=
  (f.items.map fun item => (item, true)) ++ (f.last.map fun item => (item, false)).toList

end File

/-- The lines that have servers. -/
def entries : List (Item × Bool) → List (Entry × Bool)
  | [] => []
  | (.entry e, newline) :: ls => (e, newline) :: entries ls
  | (.bare _ _ _ _ _, _) :: ls => entries ls
  | (.remark _ _, _) :: ls => entries ls

/-- The lines that have servers of a group. -/
def entriesOf (ls : List (Item × Bool)) (group : Text) : List (Entry × Bool) :=
  (entries ls).filter fun e => e.1.group.text = group

section Property

variable (r : Resolver) (f : File)

/-- An address is listed for a group. -/
def Listed (group address : Text) : Prop :=
  ∃ e ∈ entriesOf f.lines group, ∃ w ∈ e.1.words, r.address w = address

/-- Membership in a group is answered as the file says. -/
def Exact (sTmp : Text) : Prop :=
  ∀ group localIP, localIP ≠ [] →
    (contains (load r.gethostbyname sTmp f.text) localIP group = true ↔ Listed r f group localIP)

/-- The lines fit, and what `sTmp` holds by chance ends where the first server ends. -/
structure Plain (sTmp : Text) : Prop where
  fits : ∀ line ∈ f.lines, line.1.text.length < LINE_BUFFER - 1
  size : sTmp.length = ITEM_SIZE
  zero : ∀ e ∈ (entries f.lines).head?, ∀ w ∈ (e.1.read e.2).head?, sTmp[w.length]? = some '\x00'

/-- All addresses of a group stand on the last of its lines, as they are read there. -/
def LastHasAll : Prop :=
  ∀ group address, address ≠ [] → Listed r f group address →
    ∃ e, (entriesOf f.lines group).getLast? = some e ∧
      ∃ w ∈ e.1.read e.2, r.address w = address

/-- What is left of a server that lost its last character stands for nothing else. -/
def CutListed : Prop :=
  ∀ group e, (entriesOf f.lines group).getLast? = some e → ¬e.1.Terminated e.2 →
    r.address (e.1.lastRead e.2) = [] ∨ Listed r f group (r.address (e.1.lastRead e.2))

end Property

/-! ## Reading a line -/

section Scan

theorem scan_blanks (sValuePos : Bool) (sGroup : Text) (n : Nat) (cs : Text) :
    scan sValuePos sGroup (blanks n ++ cs) = scan sValuePos sGroup cs := by
  induction n with
  | zero => rfl
  | succ n ih =>
    rw [blanks, List.replicate_succ, List.cons_append, scan, if_pos rfl]
    exact ih

theorem scan_word (sGroup : Text) {w : Text}
    (h : ∀ c ∈ w, c ≠ ' ' ∧ c ≠ '\t' ∧ c ≠ ':' ∧ c ≠ '#' ∧ c ≠ '\n' ∧ c ≠ '\x00') (cs : Text) :
    scan false sGroup (w ++ cs) = scan false (sGroup ++ w) cs := by
  induction w generalizing sGroup with
  | nil => rw [List.append_nil, List.nil_append]
  | cons c w ih =>
    obtain ⟨hblank, _, hcolon, hsharp, hline, _⟩ := h c List.mem_cons_self
    rw [List.cons_append, scan, if_neg hblank, if_neg (fun hor => hor.elim hline hsharp),
      if_neg hcolon, if_pos rfl, ih (sGroup ++ [c]) fun d hd => h d (List.mem_cons_of_mem _ hd),
      List.append_assoc, List.singleton_append]

/-- What ends a line. -/
def ending (newline : Bool) : Text := if newline = true then ['\n'] else []

theorem scan_end (sValuePos : Bool) (sGroup : Text) (remark : Option Remark) (newline : Bool) :
    scan sValuePos sGroup (remarkText remark ++ ending newline) = (sGroup, []) := by
  cases remark with
  | none => cases newline <;> rfl
  | some remark =>
    show scan sValuePos sGroup ('#' :: (remark.text ++ ending newline)) = (sGroup, [])
    rw [scan, if_neg (by decide), if_pos (Or.inr rfl)]

/-- The newline gets into `sServer` where no comment stands in front of it. -/
def Entry.tail (e : Entry) (newline : Bool) : Text :=
  if e.remark = none ∧ newline = true then ['\n'] else []

theorem takeWhile_list (e : Entry) (newline : Bool) :
    (e.list ++ (remarkText e.remark ++ ending newline)).takeWhile (· ≠ '#') =
      e.list ++ e.tail newline := by
  have hlist : ∀ c ∈ e.list, decide (c ≠ '#') = true := by
    have hblanks : ∀ (n : Nat), ∀ c ∈ blanks n, c ≠ '#' := by
      intro n c hc
      rw [List.eq_of_mem_replicate hc]
      decide
    intro c hc
    apply decide_eq_true
    rw [Entry.list, List.mem_append, List.mem_append, List.mem_flatMap] at hc
    rcases hc with ⟨w, _, hc⟩ | hc | hc
    · rcases List.mem_append.mp hc with hc | hc
      · exact (w.1.clean c hc).2.2.2.1
      · exact hblanks (w.2 + 1) c hc
    · exact (e.last.clean c hc).2.2.2.1
    · exact hblanks _ c hc
  rw [List.takeWhile_append_of_pos hlist]
  congr 1
  unfold Entry.tail
  cases e.remark with
  | none =>
    cases newline
    · rfl
    · rfl
  | some remark =>
    rw [if_neg (fun h => Option.some_ne_none _ h.1)]
    rfl

theorem Entry.list_cons (e : Entry) : ∃ c cs, e.list = c :: cs ∧ c ≠ ' ' ∧ c ≠ ':' ∧ c ≠ '#' ∧
    c ≠ '\n' := by
  have hword : ∀ (w : Word) (cs : Text), ∃ c ds, w.text ++ cs = c :: ds ∧ c ≠ ' ' ∧ c ≠ ':' ∧
      c ≠ '#' ∧ c ≠ '\n' := by
    intro w cs
    obtain ⟨c, ws, hw⟩ := List.exists_cons_of_ne_nil w.ne
    obtain ⟨hblank, _, hcolon, hsharp, hline, _⟩ := w.clean c (by rw [hw]; exact List.mem_cons_self)
    exact ⟨c, ws ++ cs, by rw [hw]; rfl, hblank, hcolon, hsharp, hline⟩
  unfold Entry.list
  cases e.servers with
  | nil => exact hword e.last _
  | cons w ws =>
    rw [List.flatMap_cons, List.append_assoc, List.append_assoc]
    exact hword w.1 _

theorem scan_entry (e : Entry) (newline : Bool) :
    scan false [] (e.text ++ ending newline) = (e.group.text, e.list ++ e.tail newline) := by
  have hcolon : ∀ cs, scan false e.group.text (':' :: cs) = scan true e.group.text cs := by
    intro cs
    rw [scan, if_neg (by decide), if_neg (by decide), if_pos rfl]
  obtain ⟨c, cs, hlist, hblank, hsep, hsharp, hline⟩ := e.list_cons
  have hvalue : scan true e.group.text (e.list ++ (remarkText e.remark ++ ending newline)) =
      (e.group.text, e.list ++ e.tail newline) := by
    rw [← takeWhile_list, hlist, List.cons_append, scan, if_neg hblank,
      if_neg (fun hor => hor.elim hline hsharp), if_neg hsep, if_neg (by decide)]
  rw [Entry.text, List.append_assoc, List.append_assoc, List.append_assoc, List.cons_append,
    List.append_assoc, List.append_assoc, scan_blanks, scan_word [] e.group.clean, scan_blanks,
    List.nil_append, hcolon, scan_blanks, hvalue]

theorem scan_bare (lead : Nat) (group : Word) (before behind : Nat) (remark : Option Remark)
    (newline : Bool) :
    (scan false [] ((Item.bare lead group before behind remark).text ++ ending newline)).2 = [] := by
  rw [Item.text, List.append_assoc, List.append_assoc, List.append_assoc, List.cons_append,
    List.append_assoc, scan_blanks, scan_word [] group.clean, scan_blanks, scan,
    if_neg (by decide), if_neg (by decide), if_pos rfl, scan_blanks, scan_end]

theorem scan_remark (lead : Nat) (text : Option Remark) (newline : Bool) :
    (scan false [] ((Item.remark lead text).text ++ ending newline)).2 = [] := by
  rw [Item.text, List.append_assoc, scan_blanks, scan_end]

end Scan

/-! ## Splitting the servers -/

/-- The texts between blanks. -/
abbrev split (u : Text) : List Text := u.splitOnP (· = ' ')

theorem split_word {w : Text} (h : ∀ c ∈ w, c ≠ ' ') : split w = [w] :=
  List.splitOnP_eq_singleton fun c hc => decide_eq_false (h c hc)

theorem split_word_blank {w : Text} (h : ∀ c ∈ w, c ≠ ' ') (u : Text) :
    split (w ++ ' ' :: u) = w :: split u :=
  List.splitOnP_append_cons_of_forall_mem (fun c hc => decide_eq_false (h c hc)) ' ' rfl u

theorem split_blanks (n : Nat) (u : Text) :
    (split (blanks n ++ u)).filter (· ≠ []) = (split u).filter (· ≠ []) := by
  induction n with
  | zero => rfl
  | succ n ih =>
    have hhead : split (' ' :: (blanks n ++ u)) = [] :: split (blanks n ++ u) :=
      split_word_blank (List.forall_mem_nil _) _
    show (split (' ' :: (blanks n ++ u))).filter (· ≠ []) = _
    rw [hhead, List.filter_cons_of_neg (by decide), ih]

/-- `sServer` without its last character, split at the blanks, gives the servers as they are
read. -/
def Splits (sServer : Text) (words : List Text) : Prop :=
  ∃ u z, sServer = u ++ [z] ∧ (split u).filter (· ≠ []) = words.filter (· ≠ []) ∧
    (split u).head? = words.head?

theorem splits_blanks {w : Text} (h : ∀ c ∈ w, c ≠ ' ') (n : Nat) (z : Char) :
    Splits (w ++ blanks n ++ [z]) [w] := by
  refine ⟨w ++ blanks n, z, rfl, ?_⟩
  cases n with
  | zero =>
    rw [show w ++ blanks 0 = w from List.append_nil w, split_word h]
    exact ⟨rfl, rfl⟩
  | succ n =>
    have hrest := split_blanks n []
    rw [List.append_nil] at hrest
    show (split (w ++ ' ' :: blanks n)).filter (· ≠ []) = _ ∧
      (split (w ++ ' ' :: blanks n)).head? = _
    rw [split_word_blank h, List.filter_cons, hrest, List.filter_cons]
    exact ⟨rfl, rfl⟩

theorem Word.noBlank (w : Word) : ∀ c ∈ w.text, c ≠ ' ' := fun c hc => (w.clean c hc).1

theorem splits_last (e : Entry) (newline : Bool) :
    Splits (e.last.text ++ blanks e.trail ++ e.tail newline) [e.lastRead newline] := by
  unfold Entry.lastRead
  by_cases hterm : e.Terminated newline
  · rw [if_pos hterm]
    by_cases htail : e.remark = none ∧ newline = true
    · rw [Entry.tail, if_pos htail]
      exact splits_blanks e.last.noBlank _ _
    · obtain ⟨n, hn⟩ := Nat.exists_eq_succ_of_ne_zero (hterm.resolve_right htail)
      rw [Entry.tail, if_neg htail, hn, blanks, List.replicate_succ', List.append_nil,
        ← List.append_assoc]
      exact splits_blanks e.last.noBlank _ _
  · have hnot := not_or.mp hterm
    have hzero : e.trail = 0 := not_not.mp hnot.1
    have hblank : ∀ c ∈ e.last.text.dropLast, c ≠ ' ' := fun c hc =>
      e.last.noBlank c (List.mem_of_mem_dropLast hc)
    rw [if_neg hterm, Entry.tail, if_neg hnot.2, hzero, List.append_nil,
      show e.last.text ++ blanks 0 = e.last.text from List.append_nil _]
    refine ⟨e.last.text.dropLast, e.last.text.getLast e.last.ne, ?_, ?_⟩
    · exact (List.dropLast_append_getLast e.last.ne).symm
    · rw [split_word hblank]
      exact ⟨rfl, rfl⟩

theorem splits_entry (e : Entry) (newline : Bool) :
    Splits (e.list ++ e.tail newline) (e.read newline) := by
  have hlast := splits_last e newline
  unfold Entry.list Entry.read
  rw [List.append_assoc]
  induction e.servers with
  | nil => exact hlast
  | cons w ws ih =>
    obtain ⟨u, z, htext, hfilter, _⟩ := ih
    refine ⟨w.1.text ++ ' ' :: (blanks w.2 ++ u), z, ?_, ?_, ?_⟩
    · rw [List.flatMap_cons, List.append_assoc, htext]
      simp only [List.append_assoc, List.cons_append]
    · rw [split_word_blank w.1.noBlank, List.filter_cons, split_blanks, hfilter, List.map_cons,
        List.cons_append, List.filter_cons]
    · rw [split_word_blank w.1.noBlank]
      rfl

/-! ## The loop over the servers -/

/-- What is put on the list for a word. -/
def Resolver.pushed (r : Resolver) (word : Text) : List Text :=
  if word.any (· = '.') = true then [word, []]
  else [(r.gethostbyname word).getD [], (r.gethostbyname word).getD []]

theorem Resolver.mem_pushed (r : Resolver) {word address : Text} (h : address ≠ []) :
    address ∈ r.pushed word ↔ r.address word = address := by
  unfold Resolver.pushed Resolver.address
  by_cases hdot : word.any (· = '.') = true
  · rw [if_pos hdot, if_pos hdot, List.mem_cons, List.mem_singleton]
    exact ⟨fun hor => (hor.resolve_right h).symm, fun heq => Or.inl heq.symm⟩
  · rw [if_neg hdot, if_neg hdot, List.mem_cons, List.mem_singleton, or_self]
    exact eq_comm

theorem Resolver.address_nil (r : Resolver) : r.address [] = [] := by
  unfold Resolver.address
  rw [if_neg (by decide), r.empty]
  rfl

/-- `sTmp` begins with a text and has a zero byte `k` characters behind it. -/
structure Holds (sTmp word : Text) (k : Nat) : Prop where
  size : sTmp.length = ITEM_SIZE
  front : sTmp.take word.length = word
  zero : sTmp[word.length + k]? = some '\x00'

theorem holds_zeros {k : Nat} (hk : k < ITEM_SIZE) :
    Holds (List.replicate ITEM_SIZE '\x00') [] k := by
  refine ⟨List.length_replicate, rfl, ?_⟩
  rw [List.length_nil, Nat.zero_add, List.getElem?_replicate, if_pos hk]

theorem Holds.set {sTmp word : Text} {k : Nat} (h : Holds sTmp word (k + 1)) (c : Char) :
    Holds (sTmp.set word.length c) (word ++ [c]) k := by
  have hlt : word.length + (k + 1) < sTmp.length := by
    by_contra hge
    have hzero := h.zero
    rw [List.getElem?_eq_none (Nat.not_lt.mp hge)] at hzero
    cases hzero
  refine ⟨by rw [List.length_set]; exact h.size, ?_, ?_⟩
  · rw [List.length_append, List.length_singleton, List.take_add_one, List.take_set_of_le le_rfl,
      h.front, List.getElem?_set_self (by omega)]
    rfl
  · rw [List.length_append, List.length_singleton, List.getElem?_set_ne (by omega),
      Nat.add_assoc, Nat.add_comm 1 k]
    exact h.zero

theorem Holds.string {sTmp word : Text} (h : Holds sTmp word 0) (hzero : '\x00' ∉ word) :
    string sTmp = word := by
  have hdrop : sTmp = word ++ '\x00' :: sTmp.drop (word.length + 1) := by
    have hget := h.zero
    rw [Nat.add_zero] at hget
    obtain ⟨hlt, hget⟩ := List.getElem?_eq_some_iff.mp hget
    rw [← hget, ← List.drop_eq_getElem_cons hlt]
    nth_rewrite 1 [← List.take_append_drop word.length sTmp]
    rw [h.front]
  unfold PlatformManager.string
  rw [hdrop, List.takeWhile_append_of_pos, List.takeWhile_cons_of_neg (by decide), List.append_nil]
  intro c hc
  exact decide_eq_true fun heq => hzero (heq ▸ hc)

theorem Holds.cut {sTmp word : Text} (h : Holds sTmp word 0) {sBufIndex : Nat}
    (hindex : word.length ≤ sBufIndex) : Holds (sTmp.set sBufIndex '\x00') word 0 := by
  have hget := h.zero
  refine ⟨by rw [List.length_set]; exact h.size, by rw [List.take_set_of_le hindex, h.front], ?_⟩
  rcases Nat.eq_or_lt_of_le hindex with heq | hlt
  · obtain ⟨hlt, _⟩ := List.getElem?_eq_some_iff.mp hget
    rw [Nat.add_zero] at hlt ⊢
    rw [← heq, List.getElem?_set_self hlt]
  · rw [List.getElem?_set_ne (by omega), hget]

variable (r : Resolver)

/-- The groups when words were put on the list of a group one by one. -/
def Groups.extended (sGroup : Text) (s : Groups) (words : List Text) : Groups where
  sTmp := List.replicate ITEM_SIZE '\x00'
  mList := s.mList ++ words.flatMap r.pushed
  mPlatformList := fun g =>
    if g = sGroup then some (s.mList ++ words.flatMap r.pushed) else s.mPlatformList g

theorem Groups.extended_cons (sGroup : Text) (s : Groups) (word : Text) (words : List Text) :
    (s.extended r sGroup [word]).extended r sGroup words = s.extended r sGroup (word :: words) := by
  have hlist : s.mList ++ [word].flatMap r.pushed ++ words.flatMap r.pushed =
      s.mList ++ (word :: words).flatMap r.pushed := by
    rw [List.flatMap_singleton, List.flatMap_cons, List.append_assoc]
  have hmap : ∀ g, ((s.extended r sGroup [word]).extended r sGroup words).mPlatformList g =
      (s.extended r sGroup (word :: words)).mPlatformList g := by
    intro g
    by_cases hg : g = sGroup
    · simp only [Groups.extended, hg, if_true, hlist]
    · simp only [Groups.extended, hg, if_false]
  exact congrArg₂ (Groups.mk _) hlist (funext hmap)

theorem push_holds {sGroup word : Text} {sBufIndex : Nat} {s : Groups} (h : Holds s.sTmp word 0)
    (hzero : '\x00' ∉ word) (hindex : word.length ≤ sBufIndex) :
    s.push r.gethostbyname sGroup sBufIndex = s.extended r sGroup [word] := by
  unfold Groups.push Groups.extended
  rw [h.string hzero, (h.cut hindex).string hzero, List.flatMap_singleton]
  rfl

theorem length_split_head (u : Text) : ((split u).headD []).length ≤ u.length := by
  induction u with
  | nil => exact Nat.le_refl 0
  | cons c u ih =>
    rw [split, List.splitOnP_cons_eq_if_modifyHead]
    split
    · exact Nat.zero_le _
    · cases hsplit : List.splitOnP (· = ' ') u with
      | nil => exact Nat.zero_le _
      | cons p ps =>
        rw [split, hsplit] at ih
        exact Nat.succ_le_succ ih

theorem split_modifyHead_nil (u : Text) : (split u).modifyHead (([] : Text) ++ ·) = split u :=
  congrFun List.modifyHead_id (split u)

/-- The loop from the middle of a word on. -/
theorem servers_split (sGroup : Text) (z : Char) {sValuePos : Nat} (u : Text) {sBufIndex : Nat}
    {word : Text} {s : Groups} (h : Holds s.sTmp word ((split u).headD []).length)
    (hword : '\x00' ∉ word) (hu : '\x00' ∉ u) (hindex : word.length ≤ sBufIndex)
    (hsize : word.length + u.length < ITEM_SIZE) (hlast : sBufIndex + u.length = sValuePos) :
    servers r.gethostbyname sGroup sValuePos sBufIndex word.length (u ++ [z]) s =
      s.extended r sGroup ((split u).modifyHead (word ++ ·)) := by
  induction u generalizing sBufIndex word s with
  | nil =>
    rw [List.length_nil, Nat.add_zero] at hlast
    rw [List.nil_append, servers, if_pos (Or.inr hlast), push_holds r h hword hindex, servers]
    show s.extended r sGroup [word] = s.extended r sGroup [word ++ []]
    rw [List.append_nil]
  | cons c u ih =>
    rw [List.length_cons] at hlast hsize
    have hne : sBufIndex ≠ sValuePos := by omega
    have hzero : '\x00' ∉ u := fun hc => hu (List.mem_cons_of_mem _ hc)
    rw [List.cons_append, servers]
    by_cases hc : c = ' '
    · subst hc
      have hsplit : split (' ' :: u) = [] :: split u := split_word_blank (List.forall_mem_nil _) u
      have hhead := length_split_head u
      have hrest : servers r.gethostbyname sGroup sValuePos (sBufIndex + 1) 0 (u ++ [z])
          (s.extended r sGroup [word]) = (s.extended r sGroup [word]).extended r sGroup (split u) := by
        have hrun := @ih (sBufIndex + 1) [] (s.extended r sGroup [word])
          (holds_zeros (by omega)) List.not_mem_nil hzero (Nat.zero_le _)
          (by rw [List.length_nil]; omega) (by omega)
        rwa [split_modifyHead_nil] at hrun
      rw [hsplit] at h ⊢
      rw [if_pos (Or.inl rfl), push_holds r h hword hindex, hrest, Groups.extended_cons,
        List.modifyHead_cons, List.append_nil]
    · have hsplit : split (c :: u) = (split u).modifyHead (c :: ·) := by
        rw [split, List.splitOnP_cons_eq_if_modifyHead, if_neg (by simpa using hc)]
      obtain ⟨p, ps, hps⟩ := List.exists_cons_of_ne_nil (List.splitOnP_ne_nil (· = ' ') u)
      rw [hsplit, split, hps] at h
      have hnul : '\x00' ∉ word ++ [c] := by
        rw [List.mem_append, List.mem_singleton]
        exact fun hor => hor.elim hword fun heq => hu (heq ▸ List.mem_cons_self)
      have hrun := @ih (sBufIndex + 1) (word ++ [c])
        { s with sTmp := s.sTmp.set word.length c } (by rw [split, hps]; exact h.set c) hnul hzero
        (by rw [List.length_append, List.length_singleton]; omega)
        (by rw [List.length_append, List.length_singleton]; omega) (by omega)
      rw [List.length_append, List.length_singleton] at hrun
      rw [if_neg (fun hor => hor.elim hc hne), hrun, hsplit, split, hps]
      show Groups.extended r sGroup _ ((word ++ [c] ++ p) :: ps) =
        Groups.extended r sGroup s ((word ++ c :: p) :: ps)
      rw [List.append_assoc, List.singleton_append]
      rfl

/-! ## Reading the lines -/

theorem noZero_blanks (n : Nat) : '\x00' ∉ blanks n := fun hc =>
  absurd (List.eq_of_mem_replicate hc) (by decide)

theorem Word.noZero (w : Word) : '\x00' ∉ w.text := fun hc => (w.clean _ hc).2.2.2.2.2 rfl

theorem Entry.list_noZero (e : Entry) : '\x00' ∉ e.list := by
  intro hc
  rw [Entry.list, List.mem_append, List.mem_append, List.mem_flatMap] at hc
  rcases hc with ⟨w, _, hc⟩ | hc | hc
  · rcases List.mem_append.mp hc with hc | hc
    · exact w.1.noZero hc
    · exact noZero_blanks (w.2 + 1) hc
  · exact e.last.noZero hc
  · exact noZero_blanks _ hc

theorem Entry.length_list (e : Entry) (newline : Bool) :
    (e.list ++ e.tail newline).length ≤ e.text.length + 1 := by
  have htail : (e.tail newline).length ≤ 1 := by
    unfold Entry.tail
    split <;> decide
  rw [Entry.text]
  simp only [List.length_append, List.length_cons]
  omega

/-- The first server of the line fits what `sTmp` holds. -/
def Ready (sTmp : Text) (e : Entry) (newline : Bool) : Prop :=
  sTmp.length = ITEM_SIZE ∧ ∀ w ∈ (e.read newline).head?, sTmp[w.length]? = some '\x00'

theorem readLine_entry {e : Entry} {newline : Bool} {s : Groups} (h : Ready s.sTmp e newline)
    (hfits : e.text.length < LINE_BUFFER - 1) :
    ∃ words, words.filter (· ≠ []) = (e.read newline).filter (· ≠ []) ∧
      readLine r.gethostbyname s (e.text ++ ending newline) =
        Groups.extended r e.group.text { s with mList := [] } words := by
  obtain ⟨u, z, htext, hfilter, hhead⟩ := splits_entry e newline
  have hlen := e.length_list newline
  have hzero : '\x00' ∉ u := by
    intro hc
    have hmem : '\x00' ∈ e.list ++ e.tail newline := by
      rw [htext]
      exact List.mem_append_left _ hc
    rcases List.mem_append.mp hmem with hc | hc
    · exact e.list_noZero hc
    · unfold Entry.tail at hc
      split at hc
      · exact absurd (List.mem_singleton.mp hc) (by decide)
      · cases hc
  have hholds : Holds s.sTmp [] ((split u).headD []).length := by
    refine ⟨h.1, rfl, ?_⟩
    obtain ⟨p, ps, hps⟩ := List.exists_cons_of_ne_nil (List.splitOnP_ne_nil (· = ' ') u)
    rw [List.length_nil, Nat.zero_add]
    rw [split, hps] at hhead ⊢
    exact h.2 p (Eq.symm hhead)
  have hrun := servers_split r e.group.text z u (s := { s with mList := [] }) hholds
    List.not_mem_nil hzero (Nat.zero_le 0)
    (by
      rw [htext, List.length_append, List.length_singleton] at hlen
      rw [List.length_nil]
      unfold ITEM_SIZE
      unfold LINE_BUFFER at hfits
      omega) (Nat.zero_add _)
  refine ⟨split u, hfilter, ?_⟩
  have hpos : 0 < (u ++ [z]).length := by
    rw [List.length_append]
    exact Nat.succ_pos _
  have hlast : (u ++ [z]).length - 1 = u.length := by
    rw [List.length_append]
    rfl
  rw [split_modifyHead_nil] at hrun
  unfold readLine
  simp only [scan_entry, htext]
  rw [if_pos hpos, hlast]
  exact hrun

theorem readLine_nothing {s : Groups} {text : Text} (h : (scan false [] text).2 = []) :
    readLine r.gethostbyname s text = { s with mList := [] } := by
  unfold readLine
  simp only [h]
  exact if_neg (Nat.lt_irrefl 0)

/-- The word stands for the address. -/
def ReadAs (e : Entry × Bool) (address : Text) : Prop :=
  ∃ w ∈ e.1.read e.2, r.address w = address

theorem mem_flatMap_pushed {words : List Text} {e : Entry × Bool} {address : Text}
    (ha : address ≠ []) (h : words.filter (· ≠ []) = (e.1.read e.2).filter (· ≠ [])) :
    address ∈ words.flatMap r.pushed ↔ ReadAs r e address := by
  have hkept : ∀ (ws : List Text) (w : Text), r.address w = address →
      (w ∈ ws ↔ w ∈ ws.filter (· ≠ [])) := by
    intro ws w hw
    rw [List.mem_filter]
    have hne : w ≠ [] := by
      rintro rfl
      exact ha (hw.symm.trans r.address_nil)
    exact ⟨fun hmem => ⟨hmem, decide_eq_true hne⟩, fun hmem => hmem.1⟩
  rw [List.mem_flatMap]
  constructor
  · rintro ⟨w, hmem, hw⟩
    have haddress := (r.mem_pushed ha).mp hw
    exact ⟨w, (hkept _ w haddress).mpr (h ▸ (hkept _ w haddress).mp hmem), haddress⟩
  · rintro ⟨w, hmem, haddress⟩
    exact ⟨w, (hkept _ w haddress).mpr (h ▸ (hkept _ w haddress).mp hmem),
      (r.mem_pushed ha).mpr haddress⟩

theorem contains_iff {map : Text → Option (List Text)} {localIP group : Text} :
    contains map localIP group = true ↔ ∃ list, map group = some list ∧ localIP ∈ list := by
  unfold contains
  cases map group with
  | none =>
    constructor
    · intro h
      cases h
    · rintro ⟨_, h, _⟩
      cases h
  | some list =>
    rw [List.any_eq_true]
    constructor
    · rintro ⟨x, hx, heq⟩
      exact ⟨list, rfl, of_decide_eq_true heq ▸ hx⟩
    · rintro ⟨_, h, hmem⟩
      cases h
      exact ⟨localIP, hmem, decide_eq_true rfl⟩

theorem mem_of_mem_entries {ls : List (Item × Bool)} {e : Entry × Bool} (h : e ∈ entries ls) :
    (.entry e.1, e.2) ∈ ls := by
  induction ls with
  | nil => cases h
  | cons line ls ih =>
    obtain ⟨item, newline⟩ := line
    cases item with
    | bare => exact List.mem_cons_of_mem _ (ih h)
    | remark => exact List.mem_cons_of_mem _ (ih h)
    | entry e' =>
      rcases List.mem_cons.mp h with rfl | h
      · exact List.mem_cons_self
      · exact List.mem_cons_of_mem _ (ih h)

/-- After the first word `sTmp` is all zero. -/
theorem ready_zeros {e : Entry} {newline : Bool} (hfits : e.text.length < LINE_BUFFER - 1) :
    Ready (List.replicate ITEM_SIZE '\x00') e newline := by
  refine ⟨List.length_replicate, ?_⟩
  intro w hw
  obtain ⟨u, z, htext, _, hhead⟩ := splits_entry e newline
  have hlen := e.length_list newline
  have hsplit := length_split_head u
  rw [List.headD_eq_head?_getD, hhead, hw, Option.getD_some] at hsplit
  rw [htext, List.length_append, List.length_singleton] at hlen
  rw [List.getElem?_replicate, if_pos]
  unfold ITEM_SIZE
  unfold LINE_BUFFER at hfits
  omega

theorem entriesOf_self (e : Entry) (newline : Bool) (ls : List (Item × Bool)) :
    entriesOf ((.entry e, newline) :: ls) e.group.text =
      (e, newline) :: entriesOf ls e.group.text :=
  List.filter_cons_of_pos (decide_eq_true rfl)

theorem entriesOf_of_ne {e : Entry} {newline : Bool} {ls : List (Item × Bool)} {group : Text}
    (h : e.group.text ≠ group) : entriesOf ((.entry e, newline) :: ls) group = entriesOf ls group :=
  List.filter_cons_of_neg fun heq => h (of_decide_eq_true heq)

theorem contains_extended_self {e : Entry} {newline : Bool} {s : Groups} {words : List Text}
    {address : Text} (ha : address ≠ [])
    (h : words.filter (· ≠ []) = (e.read newline).filter (· ≠ [])) :
    contains (Groups.extended r e.group.text { s with mList := [] } words).mPlatformList address
      e.group.text = true ↔ ReadAs r (e, newline) address := by
  rw [contains_iff, ← mem_flatMap_pushed r ha h]
  have hmap : (Groups.extended r e.group.text { s with mList := [] } words).mPlatformList
      e.group.text = some (words.flatMap r.pushed) := if_pos rfl
  rw [hmap]
  constructor
  · rintro ⟨_, heq, hmem⟩
    cases heq
    exact hmem
  · intro hmem
    exact ⟨_, rfl, hmem⟩

theorem contains_extended_of_ne {sGroup group : Text} {s : Groups} {words : List Text}
    {address : Text} (h : sGroup ≠ group) :
    contains (Groups.extended r sGroup { s with mList := [] } words).mPlatformList address group =
      contains s.mPlatformList address group := by
  have hmap : (Groups.extended r sGroup { s with mList := [] } words).mPlatformList group =
      s.mPlatformList group := if_neg (Ne.symm h)
  unfold contains
  rw [hmap]

def lineText (line : Item × Bool) : Text := line.1.text ++ ending line.2

/-- What is answered when lines were read: the last of them that has servers of the group decides,
or else what was known before. -/
theorem contains_lines {ls : List (Item × Bool)} {s : Groups} {group address : Text}
    (ha : address ≠ []) (hready : ∀ e ∈ (entries ls).head?, Ready s.sTmp e.1 e.2)
    (hfits : ∀ line ∈ ls, line.1.text.length < LINE_BUFFER - 1) :
    contains ((ls.map lineText).foldl (readLine r.gethostbyname) s).mPlatformList address group =
        true ↔
      (∃ e, (entriesOf ls group).getLast? = some e ∧ ReadAs r e address) ∨
        entriesOf ls group = [] ∧ contains s.mPlatformList address group = true := by
  induction ls generalizing s with
  | nil =>
    constructor
    · intro h
      exact Or.inr ⟨rfl, h⟩
    · rintro (⟨_, h, _⟩ | h)
      · cases h
      · exact h.2
  | cons line ls ih =>
    obtain ⟨item, newline⟩ := line
    have hrest : ∀ line ∈ ls, line.1.text.length < LINE_BUFFER - 1 := fun l hl =>
      hfits l (List.mem_cons_of_mem _ hl)
    rw [List.map_cons, List.foldl_cons]
    cases item with
    | bare lead g before behind comment =>
      rw [lineText, readLine_nothing r (scan_bare lead g before behind comment newline)]
      exact @ih { s with mList := [] } hready hrest
    | remark lead comment =>
      rw [lineText, readLine_nothing r (scan_remark lead comment newline)]
      exact @ih { s with mList := [] } hready hrest
    | entry e =>
      have hline := hfits _ List.mem_cons_self
      obtain ⟨words, hwords, hread⟩ := readLine_entry r (hready (e, newline) rfl) hline
      have hnext : ∀ e' ∈ (entries ls).head?, Ready
          (Groups.extended r e.group.text { s with mList := [] } words).sTmp e'.1 e'.2 := by
        intro e' he'
        exact ready_zeros (hrest _ (mem_of_mem_entries (List.mem_of_mem_head? he')))
      rw [lineText, show (Item.entry e).text = e.text from rfl, hread, ih hnext hrest]
      by_cases hgroup : e.group.text = group
      · subst hgroup
        rw [contains_extended_self r ha hwords, entriesOf_self]
        cases hlast : entriesOf ls e.group.text with
        | nil => simp
        | cons e' es =>
          rw [List.getLast?_cons_cons]
          simp
      · rw [contains_extended_of_ne r hgroup, entriesOf_of_ne hgroup]

/-! ## The whole file -/

/-- No character of a line ends it. -/
theorem Item.clean (item : Item) : ∀ c ∈ item.text, c ≠ '\n' ∧ c ≠ '\x00' := by
  have hblanks : ∀ n, ∀ c ∈ blanks n, c ≠ '\n' ∧ c ≠ '\x00' := by
    intro n c hc
    rw [List.eq_of_mem_replicate hc]
    decide
  have hword : ∀ w : Word, ∀ c ∈ w.text, c ≠ '\n' ∧ c ≠ '\x00' := fun w c hc =>
    (w.clean c hc).2.2.2.2
  have hremark : ∀ remark, ∀ c ∈ remarkText remark, c ≠ '\n' ∧ c ≠ '\x00' := by
    intro remark c hc
    cases remark with
    | none => cases hc
    | some remark =>
      rcases List.mem_cons.mp hc with rfl | hc
      · decide
      · exact remark.clean c hc
  have hcolon : ':' ≠ '\n' ∧ ':' ≠ '\x00' := by decide
  intro c hc
  cases item with
  | remark lead comment =>
    rcases List.mem_append.mp hc with hc | hc
    · exact hblanks _ c hc
    · exact hremark _ c hc
  | bare lead group before behind comment =>
    rw [Item.text, List.mem_append, List.mem_append, List.mem_append, List.mem_cons,
      List.mem_append] at hc
    rcases hc with hc | hc | hc | rfl | hc | hc
    · exact hblanks _ c hc
    · exact hword _ c hc
    · exact hblanks _ c hc
    · exact hcolon
    · exact hblanks _ c hc
    · exact hremark _ c hc
  | entry e =>
    rw [Item.text, Entry.text, Entry.list, List.mem_append, List.mem_append, List.mem_append,
      List.mem_cons, List.mem_append, List.mem_append, List.mem_append, List.mem_append,
      List.mem_flatMap] at hc
    rcases hc with hc | hc | hc | rfl | hc | (⟨w, _, hc⟩ | hc | hc) | hc
    · exact hblanks _ c hc
    · exact hword _ c hc
    · exact hblanks _ c hc
    · exact hcolon
    · exact hblanks _ c hc
    · rcases List.mem_append.mp hc with hc | hc
      · exact hword _ c hc
      · exact hblanks (w.2 + 1) c hc
    · exact hword _ c hc
    · exact hblanks _ c hc
    · exact hremark _ c hc

theorem foldl_fileLines (f : File) (s : Groups)
    (hfits : ∀ line ∈ f.lines, line.1.text.length < LINE_BUFFER - 1) :
    ((fileLines f.text).foldl (readLine r.gethostbyname) s).mPlatformList =
      ((f.lines.map lineText).foldl (readLine r.gethostbyname) s).mPlatformList := by
  have hclean : ∀ line ∈ f.lines, '\n' ∉ line.1.text ∧ '\x00' ∉ line.1.text ∧
      line.1.text.length < LINE_BUFFER - 1 := fun line hline =>
    ⟨fun hc => (line.1.clean _ hc).1 rfl, fun hc => (line.1.clean _ hc).2 rfl, hfits line hline⟩
  have hitems : ∀ text ∈ f.items.map Item.text, '\n' ∉ text ∧ '\x00' ∉ text ∧
      text.length < LINE_BUFFER - 1 := by
    intro text htext
    obtain ⟨item, hitem, rfl⟩ := List.mem_map.mp htext
    exact hclean (item, true) (List.mem_append_left _ (List.mem_map_of_mem hitem))
  have htext : f.text = ((f.items.map Item.text).flatMap fun l => l ++ ['\n']) ++
      (f.last.map Item.text).getD [] := by
    rw [File.text, List.flatMap_map]
  have hlines : (f.items.map fun item => (item, true)).map lineText =
      (f.items.map Item.text).map fun l => l ++ ['\n'] := by
    rw [List.map_map, List.map_map]
    rfl
  unfold fileLines
  rw [htext]
  cases hlast : f.last with
  | none =>
    have hwritten := strings_written hitems
      (⟨List.not_mem_nil, List.not_mem_nil, by decide⟩ :
        '\n' ∉ ([] : Text) ∧ '\x00' ∉ ([] : Text) ∧ ([] : Text).length < LINE_BUFFER - 1)
    rw [Option.map_none, Option.getD_none, hwritten, File.lines, hlast, Option.map_none,
      List.map_append, hlines]
    rfl
  | some last =>
    have hwritten := strings_written hitems (hclean (last, false)
      (by
        rw [File.lines, hlast]
        exact List.mem_append_right _ List.mem_cons_self))
    have hline : lineText (last, false) = last.text := List.append_nil _
    rw [Option.map_some, Option.getD_some, hwritten, File.lines, hlast, Option.map_some,
      List.map_append, hlines, List.foldl_append, List.foldl_append, Option.toList_some,
      List.map_singleton, hline]
    by_cases hempty : last.text = []
    · have hnothing := fun s => @readLine_nothing r s [] rfl
      rw [if_pos hempty, hempty, List.foldl_nil, List.foldl_cons, hnothing]
      rfl
    · rw [if_neg hempty]

theorem contains_load {f : File} {sTmp group address : Text} (h : Plain f sTmp)
    (ha : address ≠ []) :
    contains (load r.gethostbyname sTmp f.text) address group = true ↔
      ∃ e, (entriesOf f.lines group).getLast? = some e ∧ ReadAs r e address := by
  unfold load
  rw [foldl_fileLines r f _ h.fits,
    contains_lines r ha (fun e he => ⟨h.size, h.zero e he⟩) h.fits]
  constructor
  · rintro (hread | ⟨_, hbefore⟩)
    · exact hread
    · cases hbefore
  · exact Or.inl

/-- Membership is answered exactly if the last line of each group has all its servers, and a
character that is cut off does not make another server of one. -/
theorem exact_iff (f : File) (sTmp : Text) (h : Plain f sTmp) :
    Exact r f sTmp ↔ LastHasAll r f ∧ CutListed r f := by
  have hcontains := fun group address ha => @contains_load r f sTmp group address h ha
  constructor
  · intro hexact
    constructor
    · intro group address ha hlisted
      exact (hcontains group address ha).mp ((hexact group address ha).mpr hlisted)
    · intro group e he _
      by_cases ha : r.address (e.1.lastRead e.2) = []
      · exact Or.inl ha
      · right
        apply (hexact group _ ha).mp
        apply (hcontains group _ ha).mpr
        exact ⟨e, he, _, List.mem_append_right _ List.mem_cons_self, rfl⟩
  · intro ⟨hall, hcut⟩ group address ha
    rw [hcontains group address ha]
    constructor
    · rintro ⟨e, he, w, hw, haddress⟩
      have hmem : e ∈ entriesOf f.lines group := List.mem_of_getLast? he
      rcases List.mem_append.mp hw with hw | hw
      · exact ⟨e, hmem, w, List.mem_append_left _ hw, haddress⟩
      · obtain rfl := List.mem_singleton.mp hw
        by_cases hterm : e.1.Terminated e.2
        · rw [Entry.lastRead, if_pos hterm] at haddress
          exact ⟨e, hmem, _, List.mem_append_right _ List.mem_cons_self, haddress⟩
        · rcases hcut group e he hterm with hnil | hlisted
          · exact absurd (haddress.symm.trans hnil) ha
          · exact haddress ▸ hlisted
    · exact hall group address ha

section Example

def word (text : Text) (ne : text ≠ []) (h : (text.all fun c => decide
    (c ≠ ' ' ∧ c ≠ '\t' ∧ c ≠ ':' ∧ c ≠ '#' ∧ c ≠ '\n' ∧ c ≠ '\x00')) = true) : Word :=
  ⟨text, ne, fun c hc => of_decide_eq_true (List.all_eq_true.mp h c hc)⟩

/-- `db:10.0.0.1` -/
def oneServer : Entry where
  lead := 0
  group := word "db".toList (by decide) (by decide)
  before := 0
  behind := 0
  servers := []
  last := word "10.0.0.1".toList (by decide) (by decide)
  trail := 0
  remark := none

def noNames : Resolver := ⟨fun _ => none, rfl⟩

theorem plain_oneServer {f : File} {newline : Bool} (h : f.lines = [(.entry oneServer, newline)]) :
    Plain f (List.replicate ITEM_SIZE '\x00') := by
  have hfits : oneServer.text.length < LINE_BUFFER - 1 := by decide
  have hready : Ready _ oneServer newline := ready_zeros hfits
  refine ⟨?_, List.length_replicate, ?_⟩
  · intro line hline
    rw [h, List.mem_singleton] at hline
    subst hline
    exact hfits
  · intro e he
    rw [h] at he
    cases he
    exact hready.2

/-- With a newline at the end. -/
theorem exact_oneServer :
    Exact noNames ⟨[.entry oneServer], none⟩ (List.replicate ITEM_SIZE '\x00') := by
  apply (exact_iff noNames ⟨[.entry oneServer], none⟩ _ (plain_oneServer rfl)).mpr
  have hterm : oneServer.Terminated true := by decide
  constructor
  · intro group address _ ⟨e, he, w, hw, haddress⟩
    have hmem := List.mem_filter.mp he
    obtain rfl := List.mem_singleton.mp hmem.1
    have hgroup : oneServer.group.text = group := of_decide_eq_true hmem.2
    refine ⟨(oneServer, true), ?_, w, hw, haddress⟩
    rw [← hgroup]
    rfl
  · intro group e he hnot
    have hmem := List.mem_filter.mp (List.mem_of_getLast? he)
    obtain rfl := List.mem_singleton.mp hmem.1
    exact absurd hterm hnot

/-- Without it the last character of the address is lost. -/
theorem not_exact_oneServer :
    ¬∀ (r : Resolver) (f : File) (sTmp : Text), Exact r f sTmp := by
  intro h
  have hlisted : Listed noNames ⟨[], some (.entry oneServer)⟩ "db".toList "10.0.0.1".toList :=
    ⟨(oneServer, false), List.mem_singleton.mpr rfl, _, List.mem_singleton.mpr rfl, rfl⟩
  have hcontained := (h noNames ⟨[], some (.entry oneServer)⟩ (List.replicate ITEM_SIZE '\x00')
    "db".toList "10.0.0.1".toList (by decide)).mpr hlisted
  obtain ⟨e, he, w, hw, haddress⟩ :=
    (contains_load noNames (plain_oneServer rfl) (by decide)).mp hcontained
  cases he
  obtain rfl := List.mem_singleton.mp hw
  exact absurd haddress (by decide)

end Example

end Natc.Suite.PlatformManager
