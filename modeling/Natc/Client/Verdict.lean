import Natc.Staf

/-!
# The verdict of a test case between service and client

The service puts the verdict and the comment of the test case into one message; the client finds
the verdict by searching the message for the verdict words, one after the other.
-/

namespace Natc.Client

open Lib

/-- The verdicts `runParseTable` and `runReal` issue. -/
inductive Verdict where
  | pass | fail | error | fatal | hit | miss | crash | ignr
  deriving DecidableEq, Repr

def Verdict.text : Verdict → Text
  | .pass => "PASS".toList
  | .fail => "FAIL".toList
  | .error => "ERROR".toList
  | .fatal => "FATAL".toList
  | .hit => "HIT".toList
  | .miss => "MISS".toList
  | .crash => "CRASH".toList
  | .ignr => "IGNR".toList

/-- The order in which the client searches. -/
def searchOrder : List Verdict := [.pass, .fail, .error, .fatal, .hit, .miss, .crash, .ignr]

/-- The verdicts the client searches for before it comes to `v`. -/
def Verdict.earlier (v : Verdict) : List Verdict := searchOrder.takeWhile (· ≠ v)

/-- `%5s` and `%-30s`. -/
def padLeft (n : Nat) (s : Text) : Text := List.replicate (n - s.length) ' ' ++ s

def padRight (n : Nat) (s : Text) : Text := s ++ List.replicate (n - s.length) ' '

/-- `mComment[30] = '\0'`. -/
def cutComment (mComment : Text) : Text := mComment.take 30

/-- The message `Servicer::enqueueData` builds, with `STAF_USE_COLOR` or without. -/
def enqueueData (color : Bool) (aPass : Verdict) (mComment : Text) : Text :=
  let code := if aPass = .pass then "32".toList else "31;1".toList
  if color then
    "\x1b[0;".toList ++ code ++ "m".toList ++ padLeft 5 aPass.text ++ "\x1b[0m".toList ++
      " # ".toList ++ padRight 30 (cutComment mComment)
  else padLeft 5 aPass.text ++ " # ".toList ++ padRight 30 (cutComment mComment)

/-- The class under which the client counts a message. -/
def classify (staf : Staf) (result : Text) : Option Verdict :=
  searchOrder.find? fun v => staf.contains result v.text

section Search

variable {α : Type*} [DecidableEq α]

/-- A linear search ends at a given element exactly when that one fits and none before it does. -/
private theorem find?_eq_some_iff_takeWhile {p : α → Bool} {l : List α} {a : α} (ha : a ∈ l) :
    l.find? p = some a ↔ p a = true ∧ ∀ b ∈ l.takeWhile (· ≠ a), p b = false := by
  induction l with
  | nil => simp at ha
  | cons c l ih =>
    by_cases hc : c = a
    · subst c
      cases hp : p a with
      | true => simp [hp]
      | false =>
        have hnot : l.find? p ≠ some a := fun h => by simp [List.find?_some h] at hp
        simp [hp, hnot]
    · have hmem : a ∈ l := by simpa [Ne.symm hc] using ha
      cases hp : p c <;> simp [hp, hc, ih hmem]

end Search

theorem mem_searchOrder (v : Verdict) : v ∈ searchOrder := by
  cases v <;> decide

theorem classify_eq_some_iff (staf : Staf) (result : Text) (v : Verdict) :
    classify staf result = some v ↔
      v.text <:+: result ∧ ∀ w ∈ v.earlier, ¬ w.text <:+: result := by
  simp only [classify, find?_eq_some_iff_takeWhile (mem_searchOrder v), Verdict.earlier,
    staf.contains_iff, ← Bool.not_eq_true]

theorem text_ne_nil (v : Verdict) : v.text ≠ [] := by
  cases v <;> decide

/-- No verdict word contains another one. -/
theorem text_infix_text_iff (v w : Verdict) : w.text <:+: v.text ↔ w = v := by
  cases v <;> cases w <;> decide

private theorem blank_not_mem (n : Nat) (w : Verdict) :
    ∀ c ∈ List.replicate n ' ', c ∉ w.text := by
  intro c hc
  rw [List.eq_of_mem_replicate hc]
  cases w <;> decide

private theorem sep_not_mem (w : Verdict) : ∀ c ∈ " # ".toList, c ∉ w.text := by
  cases w <;> exact notMem_of_all (by decide)

private theorem infix_padRight (w : Verdict) (n : Nat) (s : Text) :
    w.text <:+: padRight n s ↔ w.text <:+: s :=
  infix_append_right_iff (text_ne_nil w) (blank_not_mem _ w)

private theorem infix_padLeft (w v : Verdict) (n : Nat) (s : Text) :
    w.text <:+: padLeft n v.text ++ s ↔ w.text <:+: v.text ++ s := by
  rw [padLeft, List.append_assoc, infix_append_left_iff (text_ne_nil w) (blank_not_mem _ w)]

/-- A verdict word occurs in a message as its verdict or in the comment, and nowhere else. -/
theorem infix_enqueueData_iff (color : Bool) (v w : Verdict) (mComment : Text) :
    w.text <:+: enqueueData color v mComment ↔ w = v ∨ w.text <:+: cutComment mComment := by
  have hne := text_ne_nil w
  unfold enqueueData
  cases color with
  | false =>
    simp only [Bool.false_eq_true, if_false, List.append_assoc, infix_padLeft]
    rw [infix_between_iff hne (sep_not_mem w) (by decide), infix_padRight, text_infix_text_iff]
  | true =>
    have hcode : ∀ c ∈ "\x1b[0;".toList ++ (if v = .pass then "32".toList else "31;1".toList) ++
        "m".toList, c ∉ w.text := by
      cases v <;> cases w <;> exact notMem_of_all (by decide)
    have hsep : ∀ c ∈ "\x1b[0m".toList ++ " # ".toList, c ∉ w.text := by
      cases w <;> exact notMem_of_all (by decide)
    have hmessage := infix_append_left_iff hne hcode
      (s := padLeft 5 v.text ++ ("\x1b[0m".toList ++ " # ".toList ++
        padRight 30 (cutComment mComment)))
    rw [infix_padLeft, infix_between_iff hne hsep (by decide), infix_padRight,
      text_infix_text_iff] at hmessage
    simpa only [if_true, List.append_assoc] using hmessage

/-- The client counts a case under the verdict the service issued exactly when the part of the
comment that is sent contains none of the words that are searched for earlier. -/
theorem classify_enqueueData_iff (staf : Staf) (color : Bool) (v : Verdict) (mComment : Text) :
    classify staf (enqueueData color v mComment) = some v ↔
      ∀ w ∈ v.earlier, ¬ w.text <:+: cutComment mComment := by
  have hearlier : ∀ w ∈ v.earlier, w ≠ v := by
    cases v <;> decide
  simp only [classify_eq_some_iff, infix_enqueueData_iff, true_or, true_and, not_or]
  exact ⟨fun h w hw => (h w hw).2, fun h w hw => ⟨hearlier w hw, h w hw⟩⟩

/-- A failed case whose comment says PASS is counted as passed. -/
theorem classify_changed_by_comment :
    ¬ ∀ (staf : Staf) (color : Bool) (v : Verdict) (mComment : Text),
      classify staf (enqueueData color v mComment) = some v := by
  intro h
  have hfail := h .ascii false .fail "PASSWORD EXPIRY".toList
  have hpass : classify .ascii (enqueueData false .fail "PASSWORD EXPIRY".toList) = some .pass := by
    decide
  rw [hpass] at hfail
  cases hfail

end Natc.Client
