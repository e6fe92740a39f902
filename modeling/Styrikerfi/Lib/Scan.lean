import Mathlib.Data.List.TakeWhile

/-!
# Formatted input

The conversions of `fscanf` on a text: white space is skipped, `%s` takes a word, and `%d` and `%u`
take an optional sign and digits. A number that is missing leaves the input where it was missed.

A text spells a list of words when they stand in it with white space between them (`Spells`). What
is read from a text depends on its words alone: each conversion that fits takes one of them
(`Spells.word_eq`, `Spells.number_eq`).
-/

namespace Scan

/-- White space: blank, tab, newline, vertical tab, form feed, carriage return. -/
def isSpace (c : Char) : Bool := c.toNat = 32 || 9 ≤ c.toNat && c.toNat ≤ 13

/-- The next word and what follows it; there is none at the end of the input. -/
def word (s : List Char) : Option (List Char × List Char) :=
  match s.dropWhile isSpace with
  | [] => none
  | c :: t => some ((c :: t).takeWhile (!isSpace ·), (c :: t).dropWhile (!isSpace ·))

/-- A minus or a plus sign, if there is one. -/
def sign : List Char → Bool × List Char
  | '-' :: s => (true, s)
  | '+' :: s => (false, s)
  | s => (false, s)

/-- The next number, if there is one: whether it has a minus sign, and its digits. -/
def number (s : List Char) : Option (Bool × Nat) × List Char :=
  let (neg, t) := sign (s.dropWhile isSpace)
  let ds := t.takeWhile Char.isDigit
  (if ds = [] then none else some (neg, Nat.ofDigitChars 10 ds 0), t.dropWhile Char.isDigit)

/-- A number as it is written. -/
def numeral (neg : Bool) (n : Nat) : List Char :=
  (if neg then ['-'] else []) ++ Nat.toDigits 10 n

/-- The text is the words with white space between them. -/
inductive Spells : List Char → List (List Char) → Prop
  | blank {gap : List Char} (hgap : ∀ c ∈ gap, isSpace c = true) : Spells gap []
  | word {gap u s : List Char} {ws : List (List Char)} (hgap : ∀ c ∈ gap, isSpace c = true)
      (hne : u ≠ []) (hu : ∀ c ∈ u, isSpace c = false) (hs : ∀ c ∈ s.head?, isSpace c = true)
      (h : Spells s ws) : Spells (gap ++ (u ++ s)) (u :: ws)

/-- The words, each with a blank after it. -/
def spell (ws : List (List Char)) : List Char := ws.flatMap fun w => w ++ [' ']

section
variable {gap u s t : List Char} {ws : List (List Char)} {neg : Bool} {n : Nat}

/-! ## One word -/

/-- Leading characters that satisfy a condition are dropped. -/
theorem dropWhile_gap {p : Char → Bool} (hgap : ∀ c ∈ gap, p c = true)
    (hs : ∀ c ∈ s.head?, p c = false) : (gap ++ s).dropWhile p = s := by
  rw [List.dropWhile_append_of_pos hgap]
  cases s with
  | nil => rfl
  | cons c s => exact List.dropWhile_cons_of_neg (by rw [hs c rfl]; exact Bool.false_ne_true)

/-- Leading characters that satisfy a condition are taken. -/
theorem takeWhile_word {p : Char → Bool} (hu : ∀ c ∈ u, p c = true)
    (hs : ∀ c ∈ s.head?, p c = false) : (u ++ s).takeWhile p = u := by
  rw [List.takeWhile_append_of_pos hu]
  cases s with
  | nil => rw [List.takeWhile_nil, List.append_nil]
  | cons c s =>
    rw [List.takeWhile_cons_of_neg (by rw [hs c rfl]; exact Bool.false_ne_true), List.append_nil]

/-- A word shortens the input. -/
theorem word_length (h : word s = some (u, t)) : t.length < s.length := by
  unfold word at h
  have hle := (List.dropWhile_sublist (l := s) isSpace).length_le
  split at h
  · cases h
  · next c r hr =>
    cases h
    have hc : (!isSpace c) = true := by
      have := List.head?_dropWhile_not isSpace s
      rw [hr] at this
      simpa using this
    rw [hr, List.length_cons] at hle
    have := (List.dropWhile_sublist (l := r) (!isSpace ·)).length_le
    rw [List.dropWhile_cons, if_pos hc]
    omega

/-- A text without words has no next one. -/
theorem Spells.word_nil (h : Spells s []) : Scan.word s = none := by
  cases h with
  | blank hgap =>
    have : s.dropWhile isSpace = [] := List.dropWhile_eq_nil_iff.2 hgap
    rw [Scan.word, this]

/-- A text is read word by word. -/
theorem Spells.word_eq (h : Spells s (u :: ws)) :
    ∃ t, Scan.word s = some (u, t) ∧ Spells t ws := by
  cases h with
  | @word gap _ t _ hgap hne hu hs h =>
    have hhead : ∀ c ∈ (u ++ t).head?, isSpace c = false := by
      cases u with
      | nil => exact absurd rfl hne
      | cons a u =>
        intro c hc
        obtain rfl := Option.some.inj hc
        exact hu _ List.mem_cons_self
    have hu' : ∀ c ∈ u, (!isSpace c) = true := fun c hc => by rw [hu c hc]; rfl
    have hs' : ∀ c ∈ t.head?, (!isSpace c) = false := fun c hc => by rw [hs c hc]; rfl
    refine ⟨t, ?_, h⟩
    rw [Scan.word, dropWhile_gap hgap hhead]
    cases hut : u ++ t with
    | nil => exact absurd (List.append_eq_nil_iff.1 hut).1 hne
    | cons a r =>
      dsimp only
      rw [← hut, takeWhile_word hu' hs', dropWhile_gap hu' hs']

/-! ## Numbers -/

/-- Reading a number takes up no input that is not there. -/
theorem number_length (s : List Char) : (number s).2.length ≤ s.length := by
  have hsign : ∀ t : List Char, (sign t).2.length ≤ t.length := fun t => by
    unfold sign
    split
    · exact Nat.le_succ _
    · exact Nat.le_succ _
    · exact Nat.le_refl _
  have h1 := (List.dropWhile_sublist (l := s) isSpace).length_le
  have h2 := hsign (s.dropWhile isSpace)
  have h3 := (List.dropWhile_sublist (l := (sign (s.dropWhile isSpace)).2) Char.isDigit).length_le
  exact h3.trans (h2.trans h1)

/-- White space is no digit. -/
theorem isDigit_of_isSpace {c : Char} (h : isSpace c = true) : c.isDigit = false := by
  unfold isSpace at h
  simp only [Bool.or_eq_true, decide_eq_true_eq, Bool.and_eq_true] at h
  simp only [Char.isDigit, ge_iff_le, Bool.and_eq_false_iff, decide_eq_false_iff_not,
    UInt32.le_iff_toNat_le]
  left
  have : c.val.toNat = c.toNat := rfl
  rw [this]
  show ¬ 48 ≤ c.toNat
  omega

/-- A digit is no white space. -/
theorem isSpace_of_isDigit {c : Char} (h : c.isDigit = true) : isSpace c = false := by
  cases hs : isSpace c with
  | false => rfl
  | true =>
    rw [isDigit_of_isSpace hs] at h
    cases h

/-- What a number is written with are digits. -/
theorem isDigit_of_mem {c : Char} (h : c ∈ Nat.toDigits 10 n) : c.isDigit = true :=
  Nat.isDigit_of_mem_toDigits (by decide) (by decide) h

/-- The sign of a numeral is read, and its digits are left. -/
theorem sign_numeral (neg : Bool) (n : Nat) (s : List Char) :
    sign (numeral neg n ++ s) = (neg, Nat.toDigits 10 n ++ s) := by
  cases neg with
  | true => rfl
  | false =>
    cases hd : Nat.toDigits 10 n with
    | nil => exact absurd hd Nat.toDigits_ne_nil
    | cons c ds =>
      have hc : c.isDigit = true := isDigit_of_mem (n := n) (by rw [hd]; exact List.mem_cons_self)
      rw [numeral, hd]
      show sign (c :: (ds ++ s)) = _
      unfold sign
      split
      · next h =>
        obtain ⟨rfl, -⟩ := List.cons.inj h
        exact absurd hc (by decide)
      · next h =>
        obtain ⟨rfl, -⟩ := List.cons.inj h
        exact absurd hc (by decide)
      · rfl

/-- A numeral is read, up to the white space that follows it. -/
theorem Spells.number_eq (h : Spells s (numeral neg n :: ws)) :
    ∃ t, number s = (some (neg, n), t) ∧ Spells t ws ∧ ∀ c ∈ t.head?, isSpace c = true := by
  cases h with
  | @word gap _ t _ hgap hne hu hs h =>
    have hhead : ∀ c ∈ (numeral neg n ++ t).head?, isSpace c = false := by
      intro c hc
      cases hw : numeral neg n with
      | nil => exact absurd hw hne
      | cons a u =>
        rw [hw] at hc
        obtain rfl := Option.some.inj hc
        exact hu _ (by rw [hw]; exact List.mem_cons_self)
    have hd : ∀ c ∈ Nat.toDigits 10 n, c.isDigit = true := fun c hc => isDigit_of_mem hc
    have hs' : ∀ c ∈ t.head?, c.isDigit = false := fun c hc => isDigit_of_isSpace (hs c hc)
    refine ⟨t, ?_, h, hs⟩
    rw [number, dropWhile_gap hgap hhead, sign_numeral]
    dsimp only
    rw [takeWhile_word hd hs', dropWhile_gap hd hs', if_neg Nat.toDigits_ne_nil,
      Nat.ofDigitChars_ten_toDigits]

/-! ## Spelling -/

/-- Words that are written down with spaces between them are read as these words. -/
theorem spell_spells {ws : List (List Char)}
    (h : ∀ w ∈ ws, w ≠ [] ∧ ∀ c ∈ w, isSpace c = false) : ∀ {gap : List Char},
      (∀ c ∈ gap, isSpace c = true) → Spells (gap ++ spell ws) ws := by
  induction ws with
  | nil =>
    intro gap hgap
    rw [spell, List.flatMap_nil, List.append_nil]
    exact .blank hgap
  | cons w ws ih =>
    intro gap hgap
    obtain ⟨⟨hne, hw⟩, h⟩ := List.forall_mem_cons.1 h
    have hrest : Spells ([' '] ++ spell ws) ws :=
      ih h fun c hc => by rw [List.mem_singleton.1 hc]; rfl
    have hspell : spell (w :: ws) = w ++ ([' '] ++ spell ws) := by
      rw [spell, List.flatMap_cons, List.append_assoc]
      rfl
    rw [hspell]
    refine .word hgap hne hw (fun c hc => ?_) hrest
    obtain rfl := Option.some.inj hc
    rfl

/-- A list of words is spelled with a blank after each of them. -/
theorem spells_spell (h : ∀ w ∈ ws, w ≠ [] ∧ ∀ c ∈ w, isSpace c = false) : Spells (spell ws) ws :=
  List.nil_append (spell ws) ▸ spell_spells h fun _ hc => absurd hc List.not_mem_nil

/-- A numeral is a word. -/
theorem numeral_word (neg : Bool) (n : Nat) :
    numeral neg n ≠ [] ∧ ∀ c ∈ numeral neg n, isSpace c = false := by
  refine ⟨fun h => Nat.toDigits_ne_nil (List.append_eq_nil_iff.1 h).2, fun c hc => ?_⟩
  rcases List.mem_append.1 hc with hc | hc
  · split at hc
    · rw [List.mem_singleton.1 hc]
      rfl
    · cases hc
  · exact isSpace_of_isDigit (isDigit_of_mem hc)

end

end Scan
