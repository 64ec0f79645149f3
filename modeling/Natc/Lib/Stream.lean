import Natc.Lib.Text

/-!
# Lines of a stream that arrives in chunks

A reader of a pipe gets the bytes in chunks of any size. What `fgets` returns, and what it leaves
for the next call, depends on the stream alone and not on how it was cut.
-/

namespace Natc.Lib

/-- Cut a text at the given distances. -/
def chunked : List Nat → Text → List Text
  | [], s => [s]
  | n :: ns, s => s.take n :: chunked ns (s.drop n)

@[simp] theorem flatten_chunked (ns : List Nat) (s : Text) : (chunked ns s).flatten = s := by
  induction ns generalizing s with
  | nil => simp [chunked]
  | cons n ns ih => simp [chunked, ih]

/-- The next byte of a pipe, `none` when the reader has to wait for one. -/
def getc : List Text → Option (Char × List Text)
  | [] => none
  | [] :: rest => getc rest
  | (c :: cs) :: rest => some (c, cs :: rest)

/-- Read up to and including the next newline, but at most `n` bytes. -/
def fgets : Nat → List Text → Option (Text × List Text)
  | 0, pipe => some ([], pipe)
  | n + 1, pipe =>
      (getc pipe).bind fun c =>
        if c.1 = '\n' then some (['\n'], c.2)
        else (fgets n c.2).map fun out => (c.1 :: out.1, out.2)

/-- The same on the stream itself. -/
def takeLine : Nat → Text → Option (Text × Text)
  | 0, s => some ([], s)
  | _ + 1, [] => none
  | n + 1, c :: cs =>
      if c = '\n' then some (['\n'], cs)
      else (takeLine n cs).map fun out => (c :: out.1, out.2)

private theorem getc_cons {pipe : List Text} {c : Char} {cs : Text}
    (h : pipe.flatten = c :: cs) : ∃ pipe', getc pipe = some (c, pipe') ∧ pipe'.flatten = cs := by
  induction pipe with
  | nil => simp at h
  | cons chunk rest ih =>
    cases chunk with
    | nil => exact ih h
    | cons d ds =>
      rw [List.flatten_cons, List.cons_append] at h
      obtain ⟨rfl, rfl⟩ := List.cons.inj h
      exact ⟨ds :: rest, rfl, rfl⟩

/-- However the stream is cut, `fgets` returns its next line and leaves the rest. -/
theorem fgets_of_takeLine {n : Nat} {pipe : List Text} {line rest : Text}
    (h : takeLine n pipe.flatten = some (line, rest)) :
    ∃ pipe', fgets n pipe = some (line, pipe') ∧ pipe'.flatten = rest := by
  induction n generalizing pipe line with
  | zero =>
    obtain ⟨rfl, rfl⟩ : [] = line ∧ pipe.flatten = rest := by simpa [takeLine] using h
    exact ⟨pipe, rfl, rfl⟩
  | succ n ih =>
    cases hs : pipe.flatten with
    | nil => simp [hs, takeLine] at h
    | cons c cs =>
      obtain ⟨pipe', hget, hrest⟩ := getc_cons hs
      rw [hs, takeLine] at h
      by_cases hc : c = '\n'
      · obtain ⟨rfl, rfl⟩ : ['\n'] = line ∧ cs = rest := by simpa [hc] using h
        exact ⟨pipe', by simp [fgets, hget, hc], hrest⟩
      · rw [if_neg hc, Option.map_eq_some_iff] at h
        obtain ⟨⟨l, r⟩, htake, heq⟩ := h
        obtain ⟨rfl, rfl⟩ : c :: l = line ∧ r = rest := by simpa using heq
        obtain ⟨pipe'', hf, hr⟩ := ih (hrest ▸ htake)
        exact ⟨pipe'', by simp [fgets, hget, hc, hf], hr⟩

/-- A text of complete lines. -/
def Terminated (s : Text) : Prop := ∀ c ∈ s.getLast?, c = '\n'

instance (s : Text) : Decidable (Terminated s) :=
  decidable_of_iff (s.getLast?.all (· == '\n') = true) (by
    rw [Terminated]
    cases s.getLast? <;> simp)

/-- What `takeLine` returns and what it leaves are the stream. -/
theorem takeLine_append_eq {n : Nat} {s line rest : Text} (h : takeLine n s = some (line, rest)) :
    s = line ++ rest := by
  induction n generalizing s line with
  | zero =>
    obtain ⟨rfl, rfl⟩ : [] = line ∧ s = rest := by simpa [takeLine] using h
    rfl
  | succ n ih =>
    cases s with
    | nil => simp [takeLine] at h
    | cons c cs =>
      rw [takeLine] at h
      by_cases hc : c = '\n'
      · obtain ⟨rfl, rfl⟩ : ['\n'] = line ∧ cs = rest := by simpa [hc] using h
        simp [hc]
      · rw [if_neg hc, Option.map_eq_some_iff] at h
        obtain ⟨⟨l, r⟩, htake, heq⟩ := h
        obtain ⟨rfl, rfl⟩ : c :: l = line ∧ r = rest := by simpa using heq
        rw [ih htake, List.cons_append]

theorem takeLine_ne_nil {n : Nat} {s line rest : Text}
    (h : takeLine (n + 1) s = some (line, rest)) : line ≠ [] := by
  cases s with
  | nil => simp [takeLine] at h
  | cons c cs =>
    rw [takeLine] at h
    split at h
    · obtain ⟨rfl, _⟩ : ['\n'] = line ∧ cs = rest := by simpa using h
      simp
    · obtain ⟨out, _, heq⟩ := Option.map_eq_some_iff.mp h
      obtain ⟨rfl, _⟩ : c :: out.1 = line ∧ out.2 = rest := by simpa using heq
      simp

/-- What comes behind a complete line does not matter. -/
theorem takeLine_append {n : Nat} {s line rest : Text} (h : takeLine n s = some (line, rest))
    (t : Text) : takeLine n (s ++ t) = some (line, rest ++ t) := by
  induction n generalizing s line with
  | zero =>
    obtain ⟨rfl, rfl⟩ : [] = line ∧ s = rest := by simpa [takeLine] using h
    rfl
  | succ n ih =>
    cases s with
    | nil => simp [takeLine] at h
    | cons c cs =>
      rw [List.cons_append, takeLine]
      rw [takeLine] at h
      by_cases hc : c = '\n'
      · obtain ⟨rfl, rfl⟩ : ['\n'] = line ∧ cs = rest := by simpa [hc] using h
        simp [hc]
      · rw [if_neg hc, Option.map_eq_some_iff] at h
        obtain ⟨⟨l, r⟩, htake, heq⟩ := h
        obtain ⟨rfl, rfl⟩ : c :: l = line ∧ r = rest := by simpa using heq
        simp [hc, ih htake]

theorem Terminated.tail {c : Char} {cs : Text} (h : Terminated (c :: cs)) : Terminated cs := by
  cases cs with
  | nil => simp [Terminated]
  | cons d ds => simpa [Terminated] using h

/-- A text of complete lines has a next line, and the rest is one too. -/
theorem exists_takeLine {n : Nat} {s : Text} (h : Terminated s) (hne : s ≠ []) :
    ∃ line rest, takeLine n s = some (line, rest) ∧ Terminated rest := by
  induction n generalizing s with
  | zero => exact ⟨[], s, rfl, h⟩
  | succ n ih =>
    cases s with
    | nil => exact absurd rfl hne
    | cons c cs =>
      rw [takeLine]
      by_cases hc : c = '\n'
      · exact ⟨['\n'], cs, if_pos hc, h.tail⟩
      · have hcs : cs ≠ [] := by
          rintro rfl
          exact hc (h c (by simp))
        obtain ⟨line, rest, htake, hrest⟩ := ih h.tail hcs
        exact ⟨c :: line, rest, by simp [hc, htake], hrest⟩

/-- A short line is read as a whole. -/
theorem takeLine_short {n : Nat} {line : Text} (hlen : line.length < n) (hline : '\n' ∉ line)
    (t : Text) : takeLine n (line ++ '\n' :: t) = some (line ++ ['\n'], t) := by
  induction line generalizing n with
  | nil =>
    cases n with
    | zero => simp at hlen
    | succ n => simp [takeLine]
  | cons c cs ih =>
    obtain ⟨hc, hcs⟩ : '\n' ≠ c ∧ '\n' ∉ cs := by simpa using hline
    cases n with
    | zero => simp at hlen
    | succ n =>
      rw [List.length_cons] at hlen
      simp [takeLine, Ne.symm hc, ih (n := n) (by omega) hcs]

/-- The lines of a text as `takeLine` cuts them, at most `k` of them. -/
def takeLines (n : Nat) : Nat → Text → List Text
  | 0, _ => []
  | k + 1, s => (takeLine n s).elim [] fun out => out.1 :: takeLines n k out.2

end Natc.Lib
