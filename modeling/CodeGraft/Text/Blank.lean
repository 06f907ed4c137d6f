import CodeGraft.Text.Basic

/-!
# Blank characters

The blank characters are the whitespace of every script together with the four information
separators. A line is blank when it holds nothing else.
-/

namespace CodeGraft.Text

def isBlank (c : Char) : Bool :=
  let n := c.toNat
  (0x9 ≤ n && n ≤ 0xD) || (0x1C ≤ n && n ≤ 0x20) || n == 0x85 || n == 0xA0 || n == 0x1680 ||
    (0x2000 ≤ n && n ≤ 0x200A) || n == 0x2028 || n == 0x2029 || n == 0x202F || n == 0x205F ||
    n == 0x3000

def isBlankText (text : Text) : Bool := text.all isBlank

def trimStart (text : Text) : Text := text.dropWhile isBlank

def trimEnd (text : Text) : Text := (text.reverse.dropWhile isBlank).reverse

def trim (text : Text) : Text := trimEnd (trimStart text)

theorem isBlankText_nil : isBlankText [] = true := rfl

theorem isBlankText_append (front rest : Text) :
    isBlankText (front ++ rest) = (isBlankText front && isBlankText rest) := by
  simp [isBlankText]

theorem trimStart_eq_nil_iff (text : Text) : trimStart text = [] ↔ isBlankText text = true := by
  induction text with
  | nil => simp [trimStart, isBlankText]
  | cons c text ih =>
    by_cases h : isBlank c = true
    · simp_all [trimStart, isBlankText]
    · simp [trimStart, isBlankText, h]

theorem trimEnd_eq_nil_iff (text : Text) : trimEnd text = [] ↔ isBlankText text = true := by
  have h := trimStart_eq_nil_iff text.reverse
  simp_all [trimStart, trimEnd, isBlankText]

theorem exists_trimEnd_append (text : Text) :
    ∃ blanks, text = trimEnd text ++ blanks ∧ isBlankText blanks = true := by
  refine ⟨(text.reverse.takeWhile isBlank).reverse, ?_, ?_⟩
  · rw [trimEnd, ← List.reverse_append, List.takeWhile_append_dropWhile, List.reverse_reverse]
  · simp [isBlankText]

theorem trimEnd_isPrefix (text : Text) : trimEnd text <+: text := by
  obtain ⟨blanks, htext, -⟩ := exists_trimEnd_append text
  exact ⟨blanks, htext.symm⟩

theorem trimStart_trimStart (text : Text) : trimStart (trimStart text) = trimStart text := by
  induction text with
  | nil => rfl
  | cons c text ih =>
    by_cases hc : isBlank c = true
    · simpa [trimStart, hc] using ih
    · simp [trimStart, hc]

theorem trimEnd_trimEnd (text : Text) : trimEnd (trimEnd text) = trimEnd text := by
  have h := trimStart_trimStart text.reverse
  simp only [trimStart] at h
  rw [trimEnd, trimEnd, List.reverse_reverse, h]

theorem isBlankText_trimEnd (text : Text) : isBlankText (trimEnd text) = isBlankText text := by
  rw [Bool.eq_iff_iff, ← trimEnd_eq_nil_iff, ← trimEnd_eq_nil_iff, trimEnd_trimEnd]

theorem trim_eq_nil_iff (text : Text) : trim text = [] ↔ isBlankText text = true := by
  rw [trim, trimEnd_eq_nil_iff]
  constructor
  · intro h
    induction text with
    | nil => rfl
    | cons c text ih =>
      by_cases hc : isBlank c = true
      · simp only [trimStart, List.dropWhile_cons, hc, if_true] at h
        simp only [isBlankText, List.all_cons, hc, Bool.true_and]
        exact ih h
      · simpa [trimStart, hc] using h
  · intro h
    rw [(trimStart_eq_nil_iff text).mpr h]
    rfl

theorem trimStart_append_cons {blanks : Text} (hblanks : isBlankText blanks = true) {c : Char}
    (hc : isBlank c = false) (rest : Text) : trimStart (blanks ++ c :: rest) = c :: rest := by
  rw [trimStart, List.dropWhile_append_of_pos (List.all_eq_true.mp hblanks)]
  simp [hc]

theorem trimEnd_append_cons (front : Text) {blanks : Text} (hblanks : isBlankText blanks = true)
    {c : Char} (hc : isBlank c = false) : trimEnd (front ++ c :: blanks) = front ++ [c] := by
  have hreverse : isBlankText blanks.reverse = true := by
    simpa [isBlankText] using hblanks
  have hdrop := trimStart_append_cons hreverse hc front.reverse
  rw [trimStart] at hdrop
  rw [trimEnd, List.reverse_append, List.reverse_cons, List.append_assoc, List.singleton_append,
    hdrop, List.reverse_cons, List.reverse_reverse]

theorem exists_append_trimStart (text : Text) :
    ∃ blanks, text = blanks ++ trimStart text ∧ isBlankText blanks = true := by
  refine ⟨text.takeWhile isBlank, List.takeWhile_append_dropWhile.symm, ?_⟩
  simp [isBlankText]

theorem trim_append_of_blank (text : Text) {blanks : Text} (h : isBlankText blanks = true) :
    trim (text ++ blanks) = trim text := by
  have hdrop : blanks.dropWhile isBlank = [] := (trimStart_eq_nil_iff blanks).mpr h
  have hreverse : blanks.reverse.dropWhile isBlank = [] :=
    (trimStart_eq_nil_iff _).mpr (by simpa [isBlankText] using h)
  rw [trim, trim, trimStart, trimStart, List.dropWhile_append, hdrop]
  split
  next hempty => rw [List.isEmpty_iff.mp hempty]
  next => rw [trimEnd, trimEnd, List.reverse_append, List.dropWhile_append, hreverse]; simp

theorem trim_append_left_of_blank {blanks : Text} (h : isBlankText blanks = true) (text : Text) :
    trim (blanks ++ text) = trim text := by
  rw [trim, trim, trimStart, trimStart, List.dropWhile_append_of_pos (List.all_eq_true.mp h)]

theorem trim_of_not_blank {text : Text} (h : ∀ c ∈ text, isBlank c = false) : trim text = text := by
  have hdrop : ∀ t : Text, (∀ c ∈ t, isBlank c = false) → t.dropWhile isBlank = t := by
    intro t ht
    cases t with
    | nil => rfl
    | cons c t => simp [ht c (by simp)]
  rw [trim, trimStart, hdrop text h, trimEnd, hdrop _ (by simpa using h), List.reverse_reverse]

/-- The pieces of `text` between runs of blanks, the first one put behind `word`. -/
def wordsFrom (word : Text) : Text → List Text
  | [] => if word.isEmpty then [] else [word.reverse]
  | c :: text =>
    if isBlank c then
      if word.isEmpty then wordsFrom [] text else word.reverse :: wordsFrom [] text
    else wordsFrom (c :: word) text

/-- The pieces between runs of blanks. -/
def words (text : Text) : List Text := wordsFrom [] text

theorem wordsFrom_of_not_blank {text : Text} (h : ∀ c ∈ text, isBlank c = false) (word : Text)
    (hne : word ≠ [] ∨ text ≠ []) : wordsFrom word text = [word.reverse ++ text] := by
  induction text generalizing word with
  | nil => simp_all [wordsFrom]
  | cons c text ih =>
    have hc := h c (by simp)
    rw [wordsFrom, if_neg (by simp [hc]), ih (fun d hd => h d (by simp [hd])) _ (by simp)]
    simp

end CodeGraft.Text
