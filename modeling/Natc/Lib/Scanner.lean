import Mathlib.Data.List.Infix

/-!
# Scanners

A scanner has a list of rules with patterns. At each place of a text it takes the rule with the
longest match, the first one of several. What the tokens look like is known from three functions of
their patterns: the length of the shortest text, the characters that a text can begin with, and
those that it can have.
-/

namespace Natc.Lib.Scanner

/-- A regular expression over tests of single characters. -/
inductive Regex (α : Type*) where
  | none
  | empty
  | one (p : α → Bool)
  | seq (r s : Regex α)
  | alt (r s : Regex α)
  | star (r : Regex α)

namespace Regex

variable {α : Type*}

/-- One behind the other. -/
def all (rs : List (Regex α)) : Regex α := rs.foldr seq empty

def any (rs : List (Regex α)) : Regex α := rs.foldr alt none

def plus (r : Regex α) : Regex α := seq r (star r)

def opt (r : Regex α) : Regex α := alt r empty

def Matches : Regex α → List α → Prop
  | none, _ => False
  | empty, w => w = []
  | one p, w => ∃ c, p c = true ∧ w = [c]
  | seq r s, w => ∃ u v, w = u ++ v ∧ r.Matches u ∧ s.Matches v
  | alt r s, w => r.Matches w ∨ s.Matches w
  | star r, w => ∃ us : List (List α), w = us.flatten ∧ ∀ u ∈ us, r.Matches u

def nullable : Regex α → Bool
  | none | one _ => false
  | empty | star _ => true
  | seq r s => r.nullable && s.nullable
  | alt r s => r.nullable || s.nullable

/-- What has to follow a character. -/
def deriv (c : α) : Regex α → Regex α
  | none | empty => none
  | one p => if p c then empty else none
  | seq r s => alt (seq (r.deriv c) s) (if r.nullable then s.deriv c else none)
  | alt r s => alt (r.deriv c) (s.deriv c)
  | star r => seq (r.deriv c) (star r)

/-- The length of the longest match at the front of a text. -/
def munch : Regex α → List α → Option Nat
  | r, [] => if r.nullable then some 0 else Option.none
  | r, c :: s =>
      match munch (r.deriv c) s with
      | some n => some (n + 1)
      | Option.none => if r.nullable then some 0 else Option.none

theorem matches_nil {r : Regex α} (h : r.nullable = true) : r.Matches [] := by
  induction r with
  | none => cases h
  | empty => rfl
  | one p => cases h
  | seq r s hr hs =>
    rw [nullable, Bool.and_eq_true] at h
    exact ⟨[], [], rfl, hr h.1, hs h.2⟩
  | alt r s hr hs =>
    rw [nullable, Bool.or_eq_true] at h
    exact h.imp hr hs
  | star r => exact ⟨[], rfl, List.forall_mem_nil _⟩

theorem matches_cons {r : Regex α} {c : α} {w : List α} (h : (r.deriv c).Matches w) :
    r.Matches (c :: w) := by
  induction r generalizing w with
  | none => cases h
  | empty => cases h
  | one p =>
    rw [deriv] at h
    split at h
    · next hp =>
      obtain rfl : w = [] := h
      exact ⟨c, hp, rfl⟩
    · cases h
  | seq r s hr hs =>
    rcases h with h | h
    · obtain ⟨u, v, rfl, hu, hv⟩ := h
      exact ⟨c :: u, v, rfl, hr hu, hv⟩
    · split at h
      · next hnull => exact ⟨[], c :: w, rfl, matches_nil hnull, hs h⟩
      · cases h
  | alt r s hr hs => exact Or.imp hr hs h
  | star r hr =>
    obtain ⟨u, v, rfl, hu, us, rfl, hus⟩ := h
    exact ⟨(c :: u) :: us, rfl, List.forall_mem_cons.mpr ⟨hr hu, hus⟩⟩

theorem nullable_of_matches {r : Regex α} (h : r.Matches []) : r.nullable = true := by
  induction r with
  | none => cases h
  | empty => rfl
  | one p =>
    obtain ⟨c, _, heq⟩ := h
    cases heq
  | seq r s hr hs =>
    obtain ⟨u, v, heq, hu, hv⟩ := h
    obtain ⟨rfl, rfl⟩ := List.append_eq_nil_iff.mp heq.symm
    rw [nullable, hr hu, hs hv, Bool.and_self]
  | alt r s hr hs =>
    rw [nullable, Bool.or_eq_true]
    exact Or.imp hr hs h
  | star r => rfl

theorem matches_deriv {r : Regex α} {c : α} {w : List α} (h : r.Matches (c :: w)) :
    (r.deriv c).Matches w := by
  induction r generalizing w with
  | none => cases h
  | empty => cases h
  | one p =>
    obtain ⟨d, hp, heq⟩ := h
    obtain ⟨rfl, rfl⟩ := List.cons.inj heq
    rw [deriv, if_pos hp]
    rfl
  | seq r s hr hs =>
    obtain ⟨u, v, heq, hu, hv⟩ := h
    cases u with
    | nil =>
      obtain rfl : c :: w = v := heq
      refine Or.inr ?_
      rw [if_pos (nullable_of_matches hu)]
      exact hs hv
    | cons d u =>
      obtain ⟨rfl, rfl⟩ := List.cons.inj heq
      exact Or.inl ⟨u, v, rfl, hr hu, hv⟩
  | alt r s hr hs => exact Or.imp hr hs h
  | star r hr =>
    obtain ⟨us, heq, hus⟩ := h
    induction us with
    | nil => cases heq
    | cons u us ih =>
      have hu : r.Matches u := hus u List.mem_cons_self
      have hrest : ∀ u ∈ us, r.Matches u := fun u hmem => hus u (List.mem_cons_of_mem _ hmem)
      cases u with
      | nil => exact ih heq hrest
      | cons d u =>
        obtain ⟨rfl, rfl⟩ := List.cons.inj heq
        exact ⟨u, us.flatten, rfl, hr hu, us, rfl, hrest⟩

/-- Whether a text matches. -/
def accepts : Regex α → List α → Bool
  | r, [] => r.nullable
  | r, c :: w => (r.deriv c).accepts w

theorem accepts_iff {r : Regex α} {w : List α} : r.accepts w = true ↔ r.Matches w := by
  induction w generalizing r with
  | nil => exact ⟨matches_nil, nullable_of_matches⟩
  | cons c w ih => exact ih.trans ⟨matches_cons, matches_deriv⟩

/-- No longer text at the front matches. -/
theorem le_munch {r : Regex α} {s : List α} {m : Nat} (hm : m ≤ s.length)
    (h : r.Matches (s.take m)) : ∃ n, r.munch s = some n ∧ m ≤ n := by
  induction s generalizing r m with
  | nil =>
    rw [List.take_nil] at h
    exact ⟨0, by rw [munch, if_pos (nullable_of_matches h)], hm⟩
  | cons c s ih =>
    rw [munch]
    cases m with
    | zero =>
      cases hrest : (r.deriv c).munch s with
      | some n => exact ⟨n + 1, rfl, Nat.zero_le _⟩
      | none => exact ⟨0, by simp [nullable_of_matches h], Nat.le_refl 0⟩
    | succ m =>
      obtain ⟨n, hn, hle⟩ := ih (Nat.le_of_succ_le_succ hm) (matches_deriv h)
      rw [hn]
      exact ⟨n + 1, rfl, Nat.succ_le_succ hle⟩

theorem munch_le {r : Regex α} {s : List α} {n : Nat} (h : r.munch s = some n) :
    n ≤ s.length := by
  induction s generalizing r n with
  | nil =>
    rw [munch] at h
    split at h
    · cases h
      exact Nat.le_refl 0
    · cases h
  | cons c s ih =>
    rw [munch] at h
    split at h
    · next m hm =>
      cases h
      exact Nat.succ_le_succ (ih hm)
    · split at h
      · cases h
        exact Nat.zero_le _
      · cases h

theorem munch_matches {r : Regex α} {s : List α} {n : Nat} (h : r.munch s = some n) :
    r.Matches (s.take n) := by
  induction s generalizing r n with
  | nil =>
    rw [munch] at h
    split at h
    · next hnull =>
      rw [List.take_nil]
      exact matches_nil hnull
    · cases h
  | cons c s ih =>
    rw [munch] at h
    split at h
    · next m hm =>
      cases h
      exact matches_cons (ih hm)
    · split at h
      · next hnull =>
        cases h
        exact matches_nil hnull
      · cases h

theorem star_one_matches {p : α → Bool} {w : List α} :
    (star (one p)).Matches w ↔ ∀ c ∈ w, p c = true := by
  constructor
  · rintro ⟨us, rfl, hus⟩ c hc
    obtain ⟨u, hu, hcu⟩ := List.mem_flatten.mp hc
    obtain ⟨d, hd, rfl⟩ := hus u hu
    rwa [List.mem_singleton.mp hcu]
  · intro h
    refine ⟨w.map fun c => [c], ?_, ?_⟩
    · induction w with
      | nil => rfl
      | cons c w ih =>
        rw [List.map_cons, List.flatten_cons, ← ih fun d hd => h d (List.mem_cons_of_mem _ hd)]
        rfl
    · intro u hu
      obtain ⟨c, hc, rfl⟩ := List.mem_map.mp hu
      exact ⟨c, h c hc, rfl⟩

theorem plus_one_matches {p : α → Bool} {w : List α} :
    (plus (one p)).Matches w ↔ w ≠ [] ∧ ∀ c ∈ w, p c = true := by
  constructor
  · rintro ⟨u, v, rfl, ⟨c, hc, rfl⟩, hv⟩
    exact ⟨List.cons_ne_nil c v, List.forall_mem_cons.mpr ⟨hc, star_one_matches.mp hv⟩⟩
  · rintro ⟨hne, h⟩
    obtain ⟨c, v, rfl⟩ := List.exists_cons_of_ne_nil hne
    obtain ⟨hc, hv⟩ := List.forall_mem_cons.mp h
    exact ⟨[c], v, rfl, ⟨c, hc, rfl⟩, star_one_matches.mpr hv⟩

/-! ## What the texts of a pattern look like -/

def minLength : Regex α → Nat
  | none | empty | star _ => 0
  | one _ => 1
  | seq r s => r.minLength + s.minLength
  | alt r s => min r.minLength s.minLength

/-- The length of the longest text, if there is one. -/
def maxLength : Regex α → Option Nat
  | none | empty => some 0
  | one _ => some 1
  | seq r s => r.maxLength.bind fun m => s.maxLength.map (m + ·)
  | alt r s => r.maxLength.bind fun m => s.maxLength.map (max m ·)
  | star _ => Option.none

/-- A text can begin with the character. -/
def starts (c : α) : Regex α → Bool
  | none | empty => false
  | one p => p c
  | seq r s => r.starts c || (r.nullable && s.starts c)
  | alt r s => r.starts c || s.starts c
  | star r => r.starts c

/-- A text can have the character. -/
def uses (c : α) : Regex α → Bool
  | none | empty => false
  | one p => p c
  | seq r s | alt r s => r.uses c || s.uses c
  | star r => r.uses c

variable {r : Regex α} {c : α} {w : List α}

theorem minLength_le (h : r.Matches w) : r.minLength ≤ w.length := by
  induction r generalizing w with
  | none => cases h
  | empty => exact Nat.zero_le _
  | one p =>
    obtain ⟨c, _, rfl⟩ := h
    exact Nat.le_refl 1
  | seq r s hr hs =>
    obtain ⟨u, v, rfl, hu, hv⟩ := h
    rw [List.length_append]
    exact Nat.add_le_add (hr hu) (hs hv)
  | alt r s hr hs =>
    rcases h with h | h
    · exact Nat.le_trans (Nat.min_le_left _ _) (hr h)
    · exact Nat.le_trans (Nat.min_le_right _ _) (hs h)
  | star r => exact Nat.zero_le _

theorem length_le {n : Nat} (h : r.Matches w) (hn : r.maxLength = some n) : w.length ≤ n := by
  induction r generalizing w n with
  | none => cases h
  | empty =>
    obtain rfl : w = [] := h
    exact Nat.zero_le _
  | one p =>
    obtain ⟨c, _, rfl⟩ := h
    cases hn
    exact Nat.le_refl 1
  | seq r s hr hs =>
    obtain ⟨u, v, rfl, hu, hv⟩ := h
    obtain ⟨m, hm, hn⟩ := Option.bind_eq_some_iff.mp hn
    obtain ⟨k, hk, rfl⟩ := Option.map_eq_some_iff.mp hn
    rw [List.length_append]
    exact Nat.add_le_add (hr hu hm) (hs hv hk)
  | alt r s hr hs =>
    obtain ⟨m, hm, hn⟩ := Option.bind_eq_some_iff.mp hn
    obtain ⟨k, hk, rfl⟩ := Option.map_eq_some_iff.mp hn
    rcases h with h | h
    · exact Nat.le_trans (hr h hm) (Nat.le_max_left m k)
    · exact Nat.le_trans (hs h hk) (Nat.le_max_right m k)
  | star r => cases hn

theorem starts_of_matches (h : r.Matches (c :: w)) : r.starts c = true := by
  induction r generalizing w with
  | none => cases h
  | empty => cases h
  | one p =>
    obtain ⟨d, hp, heq⟩ := h
    cases heq
    exact hp
  | seq r s hr hs =>
    obtain ⟨u, v, heq, hu, hv⟩ := h
    rw [starts, Bool.or_eq_true, Bool.and_eq_true]
    cases u with
    | nil =>
      obtain rfl : c :: w = v := heq
      exact Or.inr ⟨nullable_of_matches hu, hs hv⟩
    | cons d u =>
      cases heq
      exact Or.inl (hr hu)
  | alt r s hr hs =>
    rw [starts, Bool.or_eq_true]
    exact Or.imp hr hs h
  | star r hr =>
    obtain ⟨us, heq, hus⟩ := h
    induction us with
    | nil => cases heq
    | cons u us ih =>
      have hu : r.Matches u := hus u List.mem_cons_self
      have hrest : ∀ u ∈ us, r.Matches u := fun u hmem => hus u (List.mem_cons_of_mem _ hmem)
      cases u with
      | nil => exact ih heq hrest
      | cons d u =>
        cases heq
        exact hr hu

theorem uses_of_matches (h : r.Matches w) (hc : c ∈ w) : r.uses c = true := by
  induction r generalizing w with
  | none => cases h
  | empty =>
    obtain rfl : w = [] := h
    cases hc
  | one p =>
    obtain ⟨d, hp, rfl⟩ := h
    obtain rfl := List.mem_singleton.mp hc
    exact hp
  | seq r s hr hs =>
    obtain ⟨u, v, rfl, hu, hv⟩ := h
    rw [uses, Bool.or_eq_true]
    exact (List.mem_append.mp hc).imp (hr hu) (hs hv)
  | alt r s hr hs =>
    rw [uses, Bool.or_eq_true]
    exact h.imp (fun h => hr h hc) (fun h => hs h hc)
  | star r hr =>
    obtain ⟨us, rfl, hus⟩ := h
    obtain ⟨u, hu, hc⟩ := List.mem_flatten.mp hc
    exact hr (hus u hu) hc

end Regex

/-! ## Tokens -/

/-- A rule of a scanner. Without a kind what it matches is dropped. -/
structure Rule (α κ : Type*) where
  regex : Regex α
  kind : Option κ

/-- A token with a rule that it matches. -/
structure Token {α κ : Type*} (rules : List (Rule α κ)) where
  kind : κ
  text : List α
  matched : ∃ rule ∈ rules, rule.kind = some kind ∧ rule.regex.Matches text

section Scan

variable {α κ : Type*}

/-- The first of the rules with the longest match, and its length. No match is empty. -/
def pick : List (Rule α κ) → List α → Option (Rule α κ × Nat)
  | [], _ => none
  | rule :: rules, s =>
      match (rule.regex.munch s).filter (0 < ·), pick rules s with
      | none, best => best
      | some n, none => some (rule, n)
      | some n, some (best, m) => if m ≤ n then some (rule, n) else some (best, m)

theorem pick_spec {rules : List (Rule α κ)} {s : List α} {rule : Rule α κ} {n : Nat}
    (h : pick rules s = some (rule, n)) : rule ∈ rules ∧ rule.regex.Matches (s.take n) := by
  induction rules with
  | nil => cases h
  | cons first rules ih =>
    have hfirst : ∀ m, (first.regex.munch s).filter (0 < ·) = some m →
        first.regex.Matches (s.take m) := by
      intro m hm
      exact Regex.munch_matches (Option.filter_eq_some_iff.mp hm).1
    rw [pick] at h
    split at h
    · exact (ih h).imp (List.mem_cons_of_mem _) id
    · next m hm _ =>
      cases h
      exact ⟨List.mem_cons_self, hfirst _ hm⟩
    · next m best k hm hbest =>
      split at h
      · cases h
        exact ⟨List.mem_cons_self, hfirst _ hm⟩
      · cases h
        exact (ih hbest).imp (List.mem_cons_of_mem _) id

/-- The rule that is taken: the first one with the longest match. -/
theorem pick_eq {rules : List (Rule α κ)} {s : List α} {rule : Rule α κ} {n : Nat} (hpos : 0 < n)
    (hle : n ≤ s.length) (hfirst : rules.find? (·.regex.accepts (s.take n)) = some rule)
    (hlongest : ∀ r ∈ rules, ∀ m ≤ s.length, r.regex.Matches (s.take m) → m ≤ n) :
    pick rules s = some (rule, n) := by
  have hmunch : ∀ r ∈ rules, ∀ m, r.regex.munch s = some m → m ≤ n := by
    intro r hr m hm
    exact hlongest r hr m (Regex.munch_le hm) (Regex.munch_matches hm)
  have hbest : ∀ {rules : List (Rule α κ)}, (∀ r ∈ rules, ∀ m, r.regex.munch s = some m → m ≤ n) →
      ∀ best m, pick rules s = some (best, m) → m ≤ n := by
    intro rules hmunch
    induction rules with
    | nil =>
      intro best m h
      cases h
    | cons first rules ih =>
      intro best m h
      have hrest := ih fun r hr => hmunch r (List.mem_cons_of_mem _ hr)
      have hself : ∀ m, (first.regex.munch s).filter (0 < ·) = some m → m ≤ n := fun m hm =>
        hmunch first List.mem_cons_self m (Option.filter_eq_some_iff.mp hm).1
      rw [pick] at h
      split at h
      · exact hrest best m h
      · next k hk _ =>
        cases h
        exact hself m hk
      · next k best' m' hk hbest' =>
        split at h
        · cases h
          exact hself m hk
        · cases h
          exact hrest best m hbest'
  induction rules with
  | nil => cases hfirst
  | cons first rules ih =>
    have hrest : ∀ r ∈ rules, ∀ m, r.regex.munch s = some m → m ≤ n := fun r hr =>
      hmunch r (List.mem_cons_of_mem _ hr)
    rw [List.find?_cons] at hfirst
    rw [pick]
    split at hfirst
    · next hacc =>
      obtain rfl := Option.some.inj hfirst
      obtain ⟨m, hm, hnm⟩ := Regex.le_munch hle (Regex.accepts_iff.mp hacc)
      obtain rfl : m = n := Nat.le_antisymm (hmunch first List.mem_cons_self m hm) hnm
      have hfilter : (first.regex.munch s).filter (0 < ·) = some m := by
        rw [hm, Option.filter_some, if_pos (decide_eq_true hpos)]
      rw [hfilter]
      cases hpick : pick rules s with
      | none => rfl
      | some best =>
        obtain ⟨best, k⟩ := best
        dsimp only
        rw [if_pos (hbest hrest best k hpick)]
    · next hacc =>
      have hpick := ih hfirst (fun r hr => hlongest r (List.mem_cons_of_mem _ hr)) hrest
      rw [hpick]
      cases hfilter : (first.regex.munch s).filter (0 < ·) with
      | none => rfl
      | some m =>
        have hm := (Option.filter_eq_some_iff.mp hfilter).1
        have hne : m ≠ n := by
          rintro rfl
          have hmatch := Regex.accepts_iff.mpr (Regex.munch_matches hm)
          rw [hmatch] at hacc
          cases hacc
        have hlt : ¬ n ≤ m := fun hle =>
          hne (Nat.le_antisymm (hmunch first List.mem_cons_self m hm) hle)
        dsimp only
        rw [if_neg hlt]

/-- If some rule matches, the match that is taken is as long at least. -/
theorem exists_pick {rules : List (Rule α κ)} {s : List α} {r : Rule α κ} {m : Nat}
    (hr : r ∈ rules) (hpos : 0 < m) (hle : m ≤ s.length) (h : r.regex.Matches (s.take m)) :
    ∃ rule n, pick rules s = some (rule, n) ∧ m ≤ n := by
  induction rules with
  | nil => cases hr
  | cons first rules ih =>
    rw [pick]
    rcases List.mem_cons.mp hr with rfl | hr
    · obtain ⟨n, hn, hmn⟩ := Regex.le_munch hle h
      have hfilter : (r.regex.munch s).filter (0 < ·) = some n := by
        rw [hn, Option.filter_some, if_pos (decide_eq_true (Nat.lt_of_lt_of_le hpos hmn))]
      rw [hfilter]
      cases hpick : pick rules s with
      | none => exact ⟨r, n, rfl, hmn⟩
      | some best =>
        obtain ⟨best, k⟩ := best
        dsimp only
        split
        · exact ⟨r, n, rfl, hmn⟩
        · next hkn => exact ⟨best, k, rfl, Nat.le_trans hmn (Nat.le_of_not_le hkn)⟩
    · obtain ⟨rule, n, hpick, hmn⟩ := ih hr
      rw [hpick]
      cases (first.regex.munch s).filter (0 < ·) with
      | none => exact ⟨rule, n, rfl, hmn⟩
      | some k =>
        dsimp only
        split
        · next hnk => exact ⟨first, k, rfl, Nat.le_trans hmn hnk⟩
        · exact ⟨rule, n, rfl, hmn⟩

theorem pick_le {rules : List (Rule α κ)} {s : List α} {rule : Rule α κ} {n : Nat}
    (h : pick rules s = some (rule, n)) : n ≤ s.length := by
  induction rules with
  | nil => cases h
  | cons first rules ih =>
    have hself : ∀ m, (first.regex.munch s).filter (0 < ·) = some m → m ≤ s.length := fun m hm =>
      Regex.munch_le (Option.filter_eq_some_iff.mp hm).1
    rw [pick] at h
    split at h
    · exact ih h
    · next m hm _ =>
      cases h
      exact hself _ hm
    · next m best k hm hbest =>
      split at h
      · cases h
        exact hself _ hm
      · cases h
        exact ih hbest

/-- The scan behind `scan`: `skip` characters of the current match are still to be dropped. A
character that no rule matches is dropped too. -/
def scanFrom (rules : List (Rule α κ)) : Nat → List α → List (Token rules)
  | _, [] => []
  | skip + 1, _ :: cs => scanFrom rules skip cs
  | 0, c :: cs =>
      match hpick : pick rules (c :: cs) with
      | none => scanFrom rules 0 cs
      | some (rule, n) =>
          match hkind : rule.kind with
          | none => scanFrom rules (n - 1) cs
          | some kind =>
              ⟨kind, (c :: cs).take n, rule, (pick_spec hpick).1, hkind, (pick_spec hpick).2⟩ ::
                scanFrom rules (n - 1) cs

def scan (rules : List (Rule α κ)) (s : List α) : List (Token rules) := scanFrom rules 0 s

end Scan

section Append

variable {α κ : Type*} {rules : List (Rule α κ)} {rule : Rule α κ} {t tail : List α}

/-- The first rule that accepts a text is taken if no rule goes on behind the text. -/
theorem pick_append (ht : t ≠ []) (hfirst : rules.find? (·.regex.accepts t) = some rule)
    (hstop : ∀ r ∈ rules, ∀ d y, d :: y <+: tail → ¬ r.regex.Matches (t ++ d :: y)) :
    pick rules (t ++ tail) = some (rule, t.length) := by
  refine pick_eq (List.length_pos_iff.mpr ht) (by simp) (by rwa [List.take_left]) ?_
  intro r hr m hm hmatch
  by_contra hlt
  rw [not_le] at hlt
  obtain ⟨k, rfl⟩ := Nat.exists_eq_add_of_lt hlt
  rw [Nat.add_assoc, List.take_length_add_append] at hmatch
  cases tail with
  | nil =>
    rw [List.append_nil] at hm
    omega
  | cons d tail =>
    exact hstop r hr d (tail.take k) (List.cons_prefix_cons.mpr ⟨rfl, List.take_prefix k tail⟩)
      hmatch

/-- No rule that begins with one of the first characters goes on at one of the second, rules for
single characters apart. -/
def cutsAt (rules : List (Rule α κ)) (cs ds : List α) : Bool :=
  rules.all fun r => r.regex.maxLength == some 1 || (ds.all fun d => !r.regex.uses d) ||
    cs.all fun c => !r.regex.starts c

theorem pick_cut {cs ds w : List α} {c d : α} (hcut : cutsAt rules cs ds = true) (hc : c ∈ cs)
    (hd : d ∈ ds) (hfirst : rules.find? (·.regex.accepts (c :: w)) = some rule) :
    pick rules (c :: w ++ d :: tail) = some (rule, (c :: w).length) := by
  refine pick_append (List.cons_ne_nil c w) hfirst fun r hr e y hy hmatch => ?_
  obtain rfl : e = d := (List.cons_prefix_cons.mp hy).1
  have hcheck := List.all_eq_true.mp hcut r hr
  rw [Bool.or_eq_true, Bool.or_eq_true, beq_iff_eq] at hcheck
  rcases hcheck with (hone | huses) | hstarts
  · have hle := Regex.length_le hmatch hone
    simp at hle
  · have hnot := List.all_eq_true.mp huses e hd
    rw [Regex.uses_of_matches hmatch (List.mem_append_right (c :: w) List.mem_cons_self)] at hnot
    cases hnot
  · have hnot := List.all_eq_true.mp hstarts c hc
    rw [Regex.starts_of_matches hmatch] at hnot
    cases hnot

end Append

/-! ## Start conditions -/

/-- A scanner with start conditions: what its rules are in each, and what the action of a rule
returns for a text, with the condition that follows. -/
structure Lexer (α σ κ τ : Type*) where
  rules : σ → List (Rule α κ)
  act : σ → κ → List α → Option τ × σ

namespace Lexer

variable {α σ κ τ : Type*} (l : Lexer α σ κ τ)

/-- The tokens up to the end of the input; `skip` characters of the current match are still to be
dropped. -/
def runFrom : σ → Nat → List α → List τ
  | _, _, [] => []
  | s, skip + 1, _ :: cs => runFrom s skip cs
  | s, 0, c :: cs =>
    match pick (l.rules s) (c :: cs) with
    | some (⟨_, some k⟩, n) =>
      let out := l.act s k ((c :: cs).take n)
      out.1.toList ++ runFrom out.2 (n - 1) cs
    | _ => runFrom s 0 cs

def run (s : σ) (text : List α) : List τ := l.runFrom s 0 text

variable {l} {s : σ} {regex : Regex α} {k : κ} {t tail : List α}

theorem runFrom_skip (s : σ) (n : Nat) (text : List α) :
    l.runFrom s n text = l.run s (text.drop n) := by
  induction text generalizing n with
  | nil => cases n <;> simp [runFrom, run]
  | cons c text ih =>
    cases n with
    | zero => rfl
    | succ n => exact ih n

/-- One match. -/
theorem run_pick (ht : t ≠ [])
    (h : pick (l.rules s) (t ++ tail) = some (⟨regex, some k⟩, t.length)) :
    l.run s (t ++ tail) = (l.act s k t).1.toList ++ l.run (l.act s k t).2 tail := by
  obtain ⟨c, t, rfl⟩ := List.exists_cons_of_ne_nil ht
  have htake : (c :: (t ++ tail)).take (c :: t).length = c :: t := by
    rw [← List.cons_append, List.take_left]
  rw [List.cons_append] at h ⊢
  rw [run, runFrom, h]
  dsimp only
  rw [htake, runFrom_skip]
  congr 2
  simp

/-- One match that the next character cuts off. -/
theorem run_cut {c d : α} {w tail : List α}
    (hfirst : (l.rules s).find? (·.regex.accepts (c :: w)) = some ⟨regex, some k⟩)
    (hcut : cutsAt (l.rules s) [c] [d] = true) :
    l.run s (c :: w ++ d :: tail) =
      (l.act s k (c :: w)).1.toList ++ l.run (l.act s k (c :: w)).2 (d :: tail) :=
  run_pick (List.cons_ne_nil c w)
    (pick_cut hcut List.mem_cons_self List.mem_cons_self hfirst)

end Lexer

end Natc.Lib.Scanner
