import Natc.Harness.Reconnect
import Natc.Lib.Lines
import Natc.Lib.Tokens

/-!
# Platform groups

`platform_groups.conf` names the hosts of each group. `TestPlan.pm` keeps their addresses as one text
for each group, and `_parse_pg` looks in it for the own address as a regular expression.
-/

namespace Natc.Harness.PlatformGroups

open Lib

/-! ## Addresses -/

/-- What `gethostbyname` packs. -/
structure Address where
  a : UInt8
  b : UInt8
  c : UInt8
  d : UInt8
  deriving DecidableEq, Repr

def decimal (n : UInt8) : Text := Nat.toDigits 10 n.toNat

def inet_ntoa (x : Address) : Text :=
  decimal x.a ++ '.' :: (decimal x.b ++ '.' :: (decimal x.c ++ '.' :: decimal x.d))

/-- The name service, and what it gives for the own name. -/
structure Hosts where
  gethostbyname : Text → Option Address
  own : Option Address

namespace Hosts

variable (h : Hosts)

/-- Without an own address, `127.0.0.1` as Perl reads it: a text of four characters. -/
def local_ip : Text := h.own.elim ['\x7f', '\x00', '\x00', '\x01'] inet_ntoa

/-- The address that is meant. -/
def localAddress : Address := h.own.getD ⟨127, 0, 0, 1⟩

end Hosts

/-! ## The file -/

def isBlank (c : Char) : Bool := c == ' ' || c == '\t'

/-- The text around the first match of `[ \t]*:[ \t]+`. -/
def splitColon : Text → Option (Text × Text)
  | [] => none
  | c :: cs =>
    match (c :: cs).dropWhile isBlank with
    | ':' :: b :: rest =>
      if isBlank b then some ([], rest.dropWhile isBlank)
      else (splitColon cs).map fun p => (c :: p.1, p.2)
    | _ => (splitColon cs).map fun p => (c :: p.1, p.2)

/-- The name of the group and its hosts. What stands behind a second colon is dropped. -/
def entry (line : Text) : Text × List Text :=
  let line := (stripWith white line).takeWhile (· != '#')
  match splitColon line with
  | none => (line, [])
  | some (key, rest) => (key, tokens isBlank ((splitColon rest).elim rest Prod.fst))

/-- The entries of `platform_groups.conf`. -/
def entries (conf : Text) : List (Text × List Text) :=
  ((chompedLines conf).filter fun line => !line.all white).map entry

/-- The addresses of hosts, joined by blanks. A host that is not known leaves an empty place, but
not at the end. -/
def joined (h : Hosts) (hosts : List Text) : Text :=
  [' '].intercalate (((hosts.map h.gethostbyname).rdropWhile (·.isNone)).map fun a =>
    a.elim [] inet_ntoa)

/-- `pg_value` -/
def pg_value (h : Hosts) (conf : Text) : Text → Option Text :=
  (entries conf).foldl (fun pg e => Function.update pg e.1 (some (joined h e.2))) fun _ => none

/-! ## Tags -/

instance decidableFollows (o : Option Char) : Decidable (∃ d ∈ o, d ≠ '\n') :=
  Option.decidableExistsMem o

def isWordChar (c : Char) : Bool := c.isAlphanum || c == '_'

/-- `$1` of the first match of `\[(\w+)\](.+)`, with a caret of `\[\^(\w+)\](.+)`. -/
def firstTag (caret : Bool) : Text → Option Text
  | [] => none
  | c :: cs =>
    let word := (if caret then cs.drop 1 else cs).takeWhile isWordChar
    let rest := (if caret then cs.drop 1 else cs).dropWhile isWordChar
    if c = '[' ∧ (caret = true → cs.head? = some '^') ∧ word ≠ [] ∧ rest.head? = some ']' ∧
        (∃ d ∈ rest[1]?, d ≠ '\n') then some word
    else firstTag caret cs

/-- A regular expression without operators but the dot. -/
def matchesHere : Text → Text → Bool
  | [], _ => true
  | p :: ps, c :: cs => (if p = '.' then c ≠ '\n' else p = c) && matchesHere ps cs
  | _ :: _, [] => false

def search (pattern s : Text) : Bool := s.tails.any (matchesHere pattern)

/-- `_parse_pg` on a line of a suite. -/
def parse_pg (pg_value : Text → Option Text) (local_ip a : Text) : Bool :=
  if '^' ∈ a then
    match (firstTag true a).bind pg_value with
    | none => true
    | some s2 => !search local_ip s2
  else
    match (firstTag false a).bind pg_value with
    | none => true
    | some s2 => search local_ip s2

/-! ## What is meant -/

/-- The hosts of a group: of the last entry with its name. -/
def hostsOf (conf group : Text) : Option (List Text) :=
  (((entries conf).filter fun e => e.1 = group).getLast?).map Prod.snd

def addresses (h : Hosts) (hosts : List Text) : List Address := hosts.filterMap h.gethostbyname

/-- A line with one tag, `[G]` or `[^G]`. -/
structure SuiteLine where
  before : Text
  before_clean : '[' ∉ before
  negated : Bool
  group : Text
  group_ne : group ≠ []
  group_word : ∀ c ∈ group, isWordChar c = true
  path : Text
  path_ne : path ≠ []
  path_clean : ∀ c ∈ path, white c = false
  single : negated = false → ¬ ['[', '^'] <:+: path

namespace SuiteLine

variable (l : SuiteLine)

def text : Text :=
  l.before ++ '[' :: ((if l.negated then ['^'] else []) ++ (l.group ++ ']' :: l.path))

/-- The line is meant for the local address. -/
def Meant (h : Hosts) (conf : Text) : Prop :=
  match hostsOf conf l.group with
  | none => True
  | some hosts => l.negated = true ↔ h.localAddress ∉ addresses h hosts

/-- A caret in another place than the tag. -/
def stray : Bool := !l.negated && (l.before ++ l.path).contains '^'

/-- The own address is a member wherever it is found. -/
def Plain (h : Hosts) (conf : Text) : Prop :=
  ∀ hosts, hostsOf conf l.group = some hosts →
    if l.stray then h.localAddress ∈ addresses h hosts
    else match h.own with
      | some own => search (inet_ntoa own) (joined h hosts) = true → own ∈ addresses h hosts
      | none => h.localAddress ∉ addresses h hosts

end SuiteLine

/-! ## Groups -/

section groups

variable (h : Hosts) (conf : Text)

/-- A key of a hash has the value it was given last. -/
theorem foldl_update {α β γ : Type*} [DecidableEq α] (f : β → γ) (es : List (α × β)) (key : α) :
    es.foldl (fun (pg : α → Option γ) e => Function.update pg e.1 (some (f e.2))) (fun _ => none)
        key =
      ((es.filter fun e => e.1 = key).getLast?).map fun e => f e.2 := by
  induction es using List.reverseRecOn with
  | nil => rfl
  | append_singleton es e ih =>
    rw [List.foldl_append, List.filter_append, List.foldl_cons, List.foldl_nil]
    by_cases hkey : e.1 = key
    · rw [← hkey, Function.update_self, List.filter_cons_of_pos (by simp), List.filter_nil,
        List.getLast?_concat, Option.map_some]
    · rw [Function.update_of_ne (Ne.symm hkey), List.filter_cons_of_neg (by simpa using hkey),
        List.filter_nil, List.append_nil, ih]

theorem pg_value_eq (group : Text) :
    pg_value h conf group = (hostsOf conf group).map (joined h) := by
  rw [pg_value, foldl_update, hostsOf, Option.map_map]
  rfl

theorem mem_decimal {n : UInt8} {c : Char} (hc : c ∈ decimal n) : c.isDigit = true :=
  Nat.isDigit_of_mem_toDigits (by decide) (by decide) hc

theorem mem_inet_ntoa {x : Address} {c : Char} (hc : c ∈ inet_ntoa x) :
    c.isDigit = true ∨ c = '.' := by
  simp only [inet_ntoa, List.mem_append, List.mem_cons] at hc
  rcases hc with hc | rfl | hc | rfl | hc | rfl | hc
  · exact .inl (mem_decimal hc)
  · exact .inr rfl
  · exact .inl (mem_decimal hc)
  · exact .inr rfl
  · exact .inl (mem_decimal hc)
  · exact .inr rfl
  · exact .inl (mem_decimal hc)

theorem infix_intercalate {sep x : Text} {xs : List Text} (hx : x ∈ xs) :
    x <:+: sep.intercalate xs := by
  induction xs with
  | nil => cases hx
  | cons y ys ih =>
    cases ys with
    | nil =>
      rw [List.mem_singleton.mp hx, List.intercalate_singleton]
    | cons z zs =>
      rw [List.intercalate_cons_cons]
      rcases List.mem_cons.mp hx with rfl | hx
      · rw [List.append_assoc]
        exact (List.prefix_append _ _).isInfix
      · exact (ih hx).trans (List.suffix_append _ _).isInfix

theorem mem_intercalate {sep : Text} {xs : List Text} {c : Char} (hc : c ∈ sep.intercalate xs) :
    c ∈ sep ∨ ∃ x ∈ xs, c ∈ x := by
  induction xs with
  | nil => cases hc
  | cons y ys ih =>
    cases ys with
    | nil =>
      rw [List.intercalate_singleton] at hc
      exact .inr ⟨y, List.mem_singleton_self y, hc⟩
    | cons z zs =>
      rw [List.intercalate_cons_cons, List.mem_append, List.mem_append] at hc
      rcases hc with (hc | hc) | hc
      · exact .inr ⟨y, List.mem_cons_self, hc⟩
      · exact .inl hc
      · exact (ih hc).imp_right fun ⟨x, hx, hcx⟩ => ⟨x, List.mem_cons_of_mem _ hx, hcx⟩

/-- The address of a host stands in the text of its group. -/
theorem infix_joined {hosts : List Text} {x : Address} (hx : x ∈ addresses h hosts) :
    inet_ntoa x <:+: joined h hosts := by
  obtain ⟨host, hhost, hname⟩ := List.mem_filterMap.mp hx
  obtain ⟨before, behind, rfl⟩ := List.append_of_mem hhost
  have hmem : some x ∈ ((before ++ host :: behind).map h.gethostbyname).rdropWhile
      (·.isNone) := by
    rw [List.map_append, List.map_cons, hname, List.append_cons, rdropWhile_append_of_last]
    · simp
    · simp
  exact infix_intercalate (List.mem_map_of_mem (f := fun a => a.elim [] inet_ntoa) hmem)

theorem mem_joined {hosts : List Text} {c : Char} (hc : c ∈ joined h hosts) :
    c.isDigit = true ∨ c = '.' ∨ c = ' ' := by
  rcases mem_intercalate hc with hc | ⟨t, ht, hc⟩
  · exact .inr (.inr (List.mem_singleton.mp hc))
  · obtain ⟨x, -, rfl⟩ := List.mem_map.mp ht
    cases x with
    | none => cases hc
    | some x => exact (mem_inet_ntoa hc).imp_right .inl

end groups

/-! ## The search -/

section search

variable {pattern s : Text}

theorem matchesHere_self (hp : '\n' ∉ pattern) (t : Text) :
    matchesHere pattern (pattern ++ t) = true := by
  induction pattern with
  | nil => cases t <;> rfl
  | cons c cs ih =>
    obtain ⟨hc, hcs⟩ := List.ne_and_not_mem_of_not_mem_cons hp
    rw [List.cons_append, matchesHere, ih hcs, Bool.and_true]
    split
    · exact decide_eq_true (Ne.symm hc)
    · exact decide_eq_true rfl

theorem search_of_infix (hp : '\n' ∉ pattern) (h : pattern <:+: s) : search pattern s = true := by
  obtain ⟨u, t, rfl⟩ := h
  refine List.any_eq_true.mpr ⟨pattern ++ t, ?_, matchesHere_self hp t⟩
  rw [List.mem_tails, List.append_assoc]
  exact List.suffix_append u _

/-- The first character of a pattern, where it is no dot. -/
theorem mem_of_search {c : Char} {cs : Text} (hc : c ≠ '.') (h : search (c :: cs) s = true) :
    c ∈ s := by
  obtain ⟨t, ht, hmatch⟩ := List.any_eq_true.mp h
  rw [List.mem_tails] at ht
  cases t with
  | nil => cases hmatch
  | cons d t =>
    rw [matchesHere, if_neg hc, Bool.and_eq_true, decide_eq_true_eq] at hmatch
    rw [hmatch.1]
    exact ht.subset List.mem_cons_self

end search

/-! ## The tag of a line -/

section tag

variable {before group path s : Text}

theorem firstTag_append (caret : Bool) (h : '[' ∉ before) (t : Text) :
    firstTag caret (before ++ t) = firstTag caret t := by
  induction before with
  | nil => rfl
  | cons c cs ih =>
    obtain ⟨hc, hcs⟩ := List.ne_and_not_mem_of_not_mem_cons h
    rw [List.cons_append, firstTag]
    rw [if_neg fun hmatch => hc hmatch.1.symm]
    exact ih hcs

theorem firstTag_here (caret : Bool) (hne : group ≠ []) (hword : ∀ c ∈ group, isWordChar c = true)
    (hpath : ∃ d ∈ path.head?, d ≠ '\n') :
    firstTag caret ('[' :: ((if caret then ['^'] else []) ++ (group ++ ']' :: path))) =
      some group := by
  have htake : (group ++ ']' :: path).takeWhile isWordChar = group := by
    rw [List.takeWhile_append_of_pos hword, List.takeWhile_cons_of_neg (by decide),
      List.append_nil]
  have hdrop : (group ++ ']' :: path).dropWhile isWordChar = ']' :: path := by
    rw [List.dropWhile_append_of_pos hword, List.dropWhile_cons_of_neg (by decide)]
  obtain ⟨d, hd, hdn⟩ := hpath
  have hnext : ∃ d ∈ (']' :: path)[1]?, d ≠ '\n' := by
    refine ⟨d, ?_, hdn⟩
    rw [List.getElem?_cons_succ, ← List.head?_eq_getElem?]
    exact hd
  have hcs : (if caret then ((if caret then ['^'] else []) ++ (group ++ ']' :: path)).drop 1
      else (if caret then ['^'] else []) ++ (group ++ ']' :: path)) = group ++ ']' :: path := by
    cases caret <;> rfl
  rw [firstTag]
  rw [hcs, htake, hdrop, if_pos]
  refine ⟨rfl, ?_, hne, rfl, hnext⟩
  rintro rfl
  rfl

theorem firstTag_none (h : ¬ ['[', '^'] <:+: s) : firstTag true s = none := by
  induction s with
  | nil => rfl
  | cons c cs ih =>
    rw [firstTag]
    rw [if_neg]
    · exact ih fun hcs => h (hcs.trans (List.suffix_cons c cs).isInfix)
    · rintro ⟨rfl, hhead, -⟩
      obtain ⟨t, ht⟩ := List.head?_eq_some_iff.mp (hhead rfl)
      exact h ⟨[], t, by rw [ht]; rfl⟩

end tag

namespace SuiteLine

variable (l : SuiteLine)

theorem bracket_not_mem_group : '[' ∉ l.group ++ [']'] := by
  intro hmem
  rcases List.mem_append.mp hmem with hmem | hmem
  · exact absurd (l.group_word _ hmem) (by decide)
  · exact absurd (List.mem_singleton.mp hmem) (by decide)

theorem head_path : ∃ d ∈ l.path.head?, d ≠ '\n' := by
  obtain ⟨d, ds, hd⟩ := List.exists_cons_of_ne_nil l.path_ne
  refine ⟨d, by rw [hd]; rfl, ?_⟩
  rintro rfl
  exact absurd (l.path_clean '\n' (by rw [hd]; exact List.mem_cons_self)) (by decide)

theorem firstTag_text : firstTag l.negated l.text = some l.group := by
  rw [text, firstTag_append _ l.before_clean]
  exact firstTag_here l.negated l.group_ne l.group_word l.head_path

/-- A tag without a caret is none of the other kind. -/
theorem firstTag_caret (h : l.negated = false) : firstTag true l.text = none := by
  obtain ⟨c, cs, hc⟩ := List.exists_cons_of_ne_nil l.group_ne
  have hcaret : c ≠ '^' := by
    rintro rfl
    exact absurd (l.group_word '^' (by rw [hc]; exact List.mem_cons_self)) (by decide)
  have hsplit : l.group ++ ']' :: l.path = (l.group ++ [']']) ++ l.path := by
    rw [List.append_assoc, List.singleton_append]
  rw [text, firstTag_append _ l.before_clean, h, if_neg Bool.false_ne_true, List.nil_append,
    firstTag]
  rw [if_neg]
  · rw [hsplit, firstTag_append _ l.bracket_not_mem_group]
    exact firstTag_none (l.single h)
  · rintro ⟨-, hhead, -⟩
    rw [hc] at hhead
    exact hcaret (Option.some.inj (hhead rfl))

theorem caret_mem_iff : '^' ∈ l.text ↔ l.negated = true ∨ l.stray = true := by
  have hgroup : '^' ∉ l.group := fun hmem => absurd (l.group_word _ hmem) (by decide)
  cases hneg : l.negated <;> simp [text, stray, hneg, hgroup]

/-- What `_parse_pg` decides about a line with one tag. -/
theorem parse_pg_text (pg_value : Text → Option Text) (local_ip : Text) :
    parse_pg pg_value local_ip l.text =
      match pg_value l.group with
      | none => true
      | some s2 => l.stray || search local_ip s2 != l.negated := by
  have htag := l.firstTag_text
  rw [parse_pg]
  cases hneg : l.negated with
  | true =>
    have hstray : l.stray = false := by rw [stray, hneg]; rfl
    rw [hneg] at htag
    rw [if_pos (l.caret_mem_iff.mpr (.inl hneg)), htag, Option.bind_some, hstray]
    cases pg_value l.group with
    | none => rfl
    | some s2 =>
      dsimp only
      cases search local_ip s2 <;> rfl
  | false =>
    rw [hneg] at htag
    by_cases hstray : l.stray = true
    · rw [if_pos (l.caret_mem_iff.mpr (.inr hstray)), l.firstTag_caret hneg, Option.bind_none,
        hstray]
      cases pg_value l.group <;> rfl
    · have hcaret : '^' ∉ l.text := by
        rw [l.caret_mem_iff, hneg]
        exact fun h => h.elim Bool.false_ne_true hstray
      rw [Bool.not_eq_true] at hstray
      rw [if_neg hcaret, htag, Option.bind_some, hstray]
      cases pg_value l.group with
      | none => rfl
      | some s2 =>
        dsimp only
        cases search local_ip s2 <;> rfl

/-- A line is run exactly where it is meant to be, if and only if it is plain. -/
theorem parse_pg_iff (h : Hosts) (conf : Text) :
    (parse_pg (pg_value h conf) h.local_ip l.text = true ↔ l.Meant h conf) ↔ l.Plain h conf := by
  rw [l.parse_pg_text, pg_value_eq, Meant, Plain]
  cases hostsOf conf l.group with
  | none => simp
  | some hosts =>
    have hown : ∀ own, h.own = some own → own ∈ addresses h hosts →
        search (inet_ntoa own) (joined h hosts) = true := by
      intro own _ hmem
      refine search_of_infix (fun hnewline => ?_) (infix_joined h hmem)
      rcases mem_inet_ntoa hnewline with hdigit | hdot
      · exact absurd hdigit (by decide)
      · exact absurd hdot (by decide)
    have hlost : search ['\x7f', '\x00', '\x00', '\x01'] (joined h hosts) = false := by
      by_contra hfound
      rw [Bool.not_eq_false] at hfound
      rcases mem_joined h (mem_of_search (by decide) hfound) with hdigit | hdot | hblank
      · exact absurd hdigit (by decide)
      · exact absurd hdot (by decide)
      · exact absurd hblank (by decide)
    simp only [Option.map_some, Option.some.injEq, forall_eq']
    by_cases hstray : l.stray = true
    · have hneg : l.negated = false := by
        rw [stray, Bool.and_eq_true, Bool.not_eq_true'] at hstray
        exact hstray.1
      simp [hstray, hneg]
    · rw [Bool.not_eq_true] at hstray
      rw [hstray, Bool.false_or, if_neg Bool.false_ne_true, Hosts.local_ip, Hosts.localAddress]
      cases hself : h.own with
      | none =>
        simp only [Option.elim_none, Option.getD_none, hlost]
        cases l.negated <;> simp
      | some own =>
        simp only [Option.elim_some, Option.getD_some]
        have hmember := hown own hself
        by_cases hmem : own ∈ addresses h hosts
        · rw [hmember hmem]
          cases l.negated <;> simp [hmem]
        · cases l.negated <;> simp [hmem]

end SuiteLine

/-- A host whose name is `h` is the neighbour `10.0.0.12` of the own address. -/
def neighbour : Hosts where
  gethostbyname host := if host = ['h'] then some ⟨10, 0, 0, 12⟩ else none
  own := some ⟨10, 0, 0, 1⟩

/-- `[G]a.sql` -/
def inGroup : SuiteLine where
  before := []
  before_clean := by simp
  negated := false
  group := ['G']
  group_ne := by simp
  group_word := by simp [isWordChar]
  path := ['a', '.', 's', 'q', 'l']
  path_ne := by simp
  path_clean := by simp [white, Char.isWhitespace]
  single := by decide

/-- The line is run, though the own address is not in the group. -/
theorem not_runs_neighbour : ¬ ∀ (l : SuiteLine) (h : Hosts) (conf : Text),
    parse_pg (pg_value h conf) h.local_ip l.text = true ↔ l.Meant h conf := by
  intro h
  have hgroup : inGroup.group = ['G'] := rfl
  have hhosts : hostsOf "G : h\n".toList ['G'] = some [['h']] := by decide +kernel
  have hfound : search neighbour.local_ip (joined neighbour [['h']]) = true := by decide +kernel
  have hrun : parse_pg (pg_value neighbour "G : h\n".toList) neighbour.local_ip inGroup.text =
      true := by
    rw [inGroup.parse_pg_text, pg_value_eq, hgroup, hhosts, Option.map_some]
    dsimp only
    rw [hfound]
    rfl
  have hmeant := (h inGroup neighbour "G : h\n".toList).mp hrun
  rw [SuiteLine.Meant, hgroup, hhosts] at hmeant
  revert hmeant
  decide

end Natc.Harness.PlatformGroups
