/-!
# Texts

A text is the list of its code points, and every offset or length of this library counts code
points. This module holds the operations that know nothing of character classes: cutting a text
at offsets, splitting it at a separator and joining the pieces again.
-/

namespace CodeGraft

/-- A sequence of Unicode code points. -/
abbrev Text := List Char

instance : Coe String Text := ⟨String.toList⟩

namespace Text

def glue (parts : List Text) : Text := parts.flatten

/-- The decimal digits of a natural number. -/
def ofNat (n : Nat) : Text := (Nat.repr n).toList

theorem isDigit_of_mem_ofNat {c : Char} {n : Nat} (h : c ∈ ofNat n) : c.isDigit = true := by
  rw [ofNat, Nat.toList_repr] at h
  exact Nat.isDigit_of_mem_toDigits (by decide) (by decide) h

theorem not_mem_ofNat {c : Char} (h : c.isDigit = false) (n : Nat) : c ∉ ofNat n := by
  intro hmem
  rw [isDigit_of_mem_ofNat hmem] at h
  cases h

theorem ofNat_ne_nil (n : Nat) : ofNat n ≠ [] := by
  rw [ofNat, Nat.toList_repr]
  exact Nat.toDigits_ne_nil

theorem ofDigitChars_ofNat (n : Nat) : Nat.ofDigitChars 10 (ofNat n) 0 = n := by
  rw [ofNat, Nat.toList_repr, Nat.ofDigitChars_toDigits (by decide) (by decide)]

theorem ofNat_injective {m n : Nat} (h : ofNat m = ofNat n) : m = n := by
  rw [← ofDigitChars_ofNat m, h, ofDigitChars_ofNat]

/-- The decimal digits of an integer, after a minus sign when it is negative. -/
def ofInt : Int → Text
  | .ofNat n => ofNat n
  | .negSucc n => '-' :: ofNat (n + 1)

/-- The characters from offset `start` up to but not including offset `stop`. -/
def slice (text : Text) (start stop : Nat) : Text := (text.take stop).drop start

theorem slice_length (text : Text) (start stop : Nat) :
    (slice text start stop).length = min stop text.length - start := by
  simp [slice]

theorem slice_append_append (a b c : Text) :
    slice (a ++ (b ++ c)) a.length (a.length + b.length) = b := by
  simp [slice, List.take_append]

theorem slice_zero_length (text : Text) : slice text 0 text.length = text := by
  simp [slice]

def after? : (lead text : Text) → Option Text
  | [], text => some text
  | _ :: _, [] => none
  | l :: lead, c :: text => if l = c then after? lead text else none

theorem after?_eq_some_iff (lead text rest : Text) :
    after? lead text = some rest ↔ text = lead ++ rest := by
  induction lead generalizing text with
  | nil => simp [after?]
  | cons l lead ih =>
    cases text with
    | nil => simp [after?]
    | cons c text =>
      by_cases h : l = c
      · subst h; simp [after?, ih]
      · simp [after?, h, Ne.symm h]

def startsWith (text lead : Text) : Bool := lead.isPrefixOf text

def endsWith (text tail : Text) : Bool := tail.isSuffixOf text

/-! ### Splitting and joining -/

/-- The pieces between the separators; a text without a separator is its own only piece. -/
def splitOn (sep : Char) : Text → List Text
  | [] => [[]]
  | c :: text =>
    if c = sep then [] :: splitOn sep text
    else match splitOn sep text with
      | [] => [[c]]
      | piece :: pieces => (c :: piece) :: pieces

theorem splitOn_ne_nil (sep : Char) (text : Text) : splitOn sep text ≠ [] := by
  cases text with
  | nil => simp [splitOn]
  | cons c text =>
    simp only [splitOn]
    split
    · simp
    · split <;> simp

theorem splitOn_of_not_mem {sep : Char} {text : Text} (h : sep ∉ text) :
    splitOn sep text = [text] := by
  induction text with
  | nil => rfl
  | cons c text ih =>
    obtain ⟨hc, htext⟩ : sep ≠ c ∧ sep ∉ text := by simpa using h
    simp [splitOn, ih htext, Ne.symm hc]

theorem splitOn_append (sep : Char) (a b : Text) :
    splitOn sep (a ++ sep :: b) = splitOn sep a ++ splitOn sep b := by
  induction a with
  | nil => simp [splitOn]
  | cons c a ih =>
    by_cases h : c = sep
    · simp [splitOn, h, ih]
    · cases ha : splitOn sep a with
      | nil => exact absurd ha (splitOn_ne_nil sep a)
      | cons piece pieces => simp [splitOn, h, ih, ha]

def joinWith (sep : Text) : List Text → Text
  | [] => []
  | [piece] => piece
  | piece :: pieces => piece ++ sep ++ joinWith sep pieces

theorem joinWith_cons (sep piece : Text) (pieces : List Text) (h : pieces ≠ []) :
    joinWith sep (piece :: pieces) = piece ++ sep ++ joinWith sep pieces := by
  cases pieces with
  | nil => exact absurd rfl h
  | cons p ps => rfl

theorem isInfix_joinWith {sep piece : Text} {pieces : List Text} (h : piece ∈ pieces) :
    piece <:+: joinWith sep pieces := by
  induction pieces with
  | nil => cases h
  | cons p ps ih =>
    cases ps with
    | nil =>
      rw [List.mem_singleton.mp h]
      exact List.infix_rfl
    | cons q ps =>
      rw [joinWith_cons sep p _ (by simp)]
      rcases List.mem_cons.mp h with rfl | h
      · exact ⟨[], sep ++ joinWith sep (q :: ps), by simp⟩
      · exact (ih h).trans (List.suffix_append _ _).isInfix

theorem joinWith_splitOn (sep : Char) (text : Text) :
    joinWith [sep] (splitOn sep text) = text := by
  induction text with
  | nil => rfl
  | cons c text ih =>
    have hne := splitOn_ne_nil sep text
    by_cases h : c = sep
    · simp only [splitOn, if_pos h]
      rw [joinWith_cons _ _ _ hne, ih, h]
      rfl
    · simp only [splitOn, if_neg h]
      cases hs : splitOn sep text with
      | nil => exact absurd hs hne
      | cons piece pieces =>
        rw [hs] at ih
        cases pieces with
        | nil => simpa [joinWith] using ih
        | cons p ps => simpa [joinWith] using ih

/-- The lines of a text; only a line feed ends a line, and it belongs to none. -/
def lines (text : Text) : List Text := splitOn '\n' text

/-- The lines with a line feed between neighbours. -/
def unlines (ls : List Text) : Text := joinWith ['\n'] ls

/-- How many characters lines have together with the line feed behind each. -/
def linesLength : List Text → Nat
  | [] => 0
  | line :: rest => line.length + 1 + linesLength rest

theorem unlines_lines (text : Text) : unlines (lines text) = text :=
  joinWith_splitOn '\n' text

theorem lines_append (a b : Text) : lines (a ++ '\n' :: b) = lines a ++ lines b :=
  splitOn_append '\n' a b

theorem lines_of_not_mem {line : Text} (h : '\n' ∉ line) : lines line = [line] :=
  splitOn_of_not_mem h

theorem not_mem_of_mem_splitOn {sep : Char} {piece text : Text} (h : piece ∈ splitOn sep text) :
    sep ∉ piece := by
  induction text generalizing piece with
  | nil => simp_all [splitOn]
  | cons c text ih =>
    by_cases hc : c = sep
    · simp only [splitOn, if_pos hc, List.mem_cons] at h
      rcases h with rfl | h
      · simp
      · exact ih h
    · cases hpieces : splitOn sep text with
      | nil => exact absurd hpieces (splitOn_ne_nil sep text)
      | cons p ps =>
        rw [hpieces] at ih
        simp only [splitOn, if_neg hc, hpieces, List.mem_cons] at h
        rcases h with rfl | h
        · simpa [Ne.symm hc] using ih (List.mem_cons_self ..)
        · exact ih (List.mem_cons_of_mem _ h)

theorem lines_append_of_not_mem {line : Text} (h : '\n' ∉ line) (text : Text) :
    lines (line ++ '\n' :: text) = line :: lines text := by
  rw [lines_append, lines_of_not_mem h, List.singleton_append]

theorem unlines_cons (line : Text) {ls : List Text} (h : ls ≠ []) :
    unlines (line :: ls) = line ++ '\n' :: unlines ls := by
  rw [unlines, joinWith_cons _ _ _ h, List.append_assoc, List.singleton_append]
  rfl

theorem prefix_unlines (line : Text) (ls : List Text) : line <+: unlines (line :: ls) := by
  cases ls with
  | nil => exact List.prefix_rfl
  | cons l ls => exact unlines_cons line (List.cons_ne_nil l ls) ▸ List.prefix_append _ _

theorem isInfix_of_mem_lines {line text : Text} (h : line ∈ lines text) : line <:+: text := by
  have := @isInfix_joinWith ['\n'] line _ h
  rwa [← unlines, unlines_lines] at this

theorem linesLength_append (a b : List Text) :
    linesLength (a ++ b) = linesLength a + linesLength b := by
  induction a with
  | nil => simp [linesLength]
  | cons line a ih =>
    simp only [List.cons_append, linesLength, ih]
    omega

theorem linesLength_lines (text : Text) : linesLength (lines text) = text.length + 1 := by
  induction text with
  | nil => rfl
  | cons c text ih =>
    simp only [lines] at ih ⊢
    simp only [splitOn]
    split
    · simp [linesLength, ih]
      omega
    · cases hpieces : splitOn '\n' text with
      | nil => exact absurd hpieces (splitOn_ne_nil '\n' text)
      | cons piece pieces =>
        rw [hpieces] at ih
        simp only [linesLength, List.length_cons] at ih ⊢
        omega

def lineRest (text : Text) : Nat := (text.takeWhile (· ≠ '\n')).length

def lineEnd (text : Text) (index : Nat) : Nat :=
  min (index + lineRest (text.drop index)) text.length

theorem takeWhile_reverse_append {above front : Text}
    (habove : above.getLast?.all (· == '\n') = true) (hfront : '\n' ∉ front) :
    (above ++ front).reverse.takeWhile (· ≠ '\n') = front.reverse := by
  have hall : ∀ x ∈ front.reverse, decide (x ≠ '\n') = true := by
    intro x hx
    rw [decide_eq_true_eq]
    rintro rfl
    exact hfront (List.mem_reverse.mp hx)
  have hends : above.reverse.takeWhile (· ≠ '\n') = [] := by
    rw [← List.head?_reverse] at habove
    cases hrev : above.reverse with
    | nil => rfl
    | cons x more =>
      rw [hrev] at habove
      have hx : x = '\n' := by simpa using habove
      simp [hx]
  rw [List.reverse_append, List.takeWhile_append_of_pos hall, hends, List.append_nil]

/-- Every occurrence of one character replaced by another. -/
def replaceChar (old new : Char) (text : Text) : Text :=
  text.map fun c => if c = old then new else c

def padStart (width : Nat) (text : Text) : Text :=
  List.replicate (width - text.length) ' ' ++ text

/-- Whether `n` lies in one of the ranges, which are given in ascending order. -/
def inRanges : List (Nat × Nat) → Nat → Bool
  | [], _ => false
  | (first, last) :: ranges, n =>
    if n < first then false else if n ≤ last then true else inRanges ranges n

end Text

end CodeGraft
