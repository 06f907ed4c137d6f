import CodeGraft.Diff.Unified

/-!
# Reading differences

The text of a difference can be read by someone who has only the old version: the hunks are told apart
by the characters in front of their lines, and each is put where its ranges say. Whatever the lines
hold, the hunks are read back as they were.
-/

namespace CodeGraft

open Text

namespace Diff

/-- The lines of the old version that a hunk speaks of. -/
def oldSide (lines : List (Mark × Text)) : List Text :=
  (lines.filter (·.1 ≠ .added)).map (·.2)

/-- The lines of the new version that a hunk speaks of. -/
def newSide (lines : List (Mark × Text)) : List Text :=
  (lines.filter (·.1 ≠ .removed)).map (·.2)

def Hunk.IsCounted (h : Hunk) : Prop :=
  h.oldStart + (oldSide h.lines).length = h.oldStop ∧
    h.newStart + (newSide h.lines).length = h.newStop

instance (h : Hunk) : Decidable h.IsCounted := inferInstanceAs (Decidable (_ ∧ _))

/-- What stands behind a line that no line feed ends. -/
def remark : Text := "\\ No newline at end of file"

/-- Lines with the line feeds that end them; the remark says that the line above has none. -/
def unclosed : List Text → List Text
  | [] => []
  | [last] => if last = [] then [] else [last]
  | line :: next :: rest =>
    if next = remark then line :: unclosed rest else (line ++ ['\n']) :: unclosed (next :: rest)

def readNumber? (digits : Text) : Option Nat :=
  if digits ≠ [] ∧ digits.all Char.isDigit then some (Nat.ofDigitChars 10 digits 0) else none

def readRange? (range : Text) : Option (Nat × Nat) :=
  match splitOn ',' range with
  | [number] =>
    match readNumber? number with
    | some (start + 1) => some (start, start + 1)
    | _ => none
  | [number, length] =>
    match readNumber? number, readNumber? length with
    | some start, some 0 => some (start, start)
    | some (start + 1), some length => some (start, start + length)
    | _, _ => none
  | _ => none

def readRanges? (head : Text) : Option ((Nat × Nat) × (Nat × Nat)) :=
  match splitOn ' ' head with
  | [['@', '@'], '-' :: old, '+' :: new, ['@', '@', '\n']] => do
    some (← readRange? old, ← readRange? new)
  | _ => none

def Mark.ofChar? : Char → Option Mark
  | ' ' => some .kept
  | '-' => some .removed
  | '+' => some .added
  | _ => none

/-- Reads lines on to hunks. The lines in front of all heads belong to a hunk whose head stands
further up. -/
def readHunksFrom? : List Text → Option (List (Mark × Text) × List Hunk)
  | [] => some ([], [])
  | line :: rest => do
    let (lines, hunks) ← readHunksFrom? rest
    match line with
    | [] => none
    | c :: text =>
      if c = '@' then
        let (old, new) ← readRanges? line
        let hunk : Hunk := ⟨old.1, old.2, new.1, new.2, lines⟩
        if hunk.IsCounted then some ([], hunk :: hunks) else none
      else
        let mark ← Mark.ofChar? c
        some ((mark, text) :: lines, hunks)

/-- Reads the hunks of a difference, which stand below the names of the two files. -/
def readHunks? (difference : Text) : Option (List Hunk) :=
  match unclosed (lines difference) with
  | [] => some []
  | old :: new :: rest =>
    if startsWith old "--- " ∧ startsWith new "+++ " then
      match readHunksFrom? rest with
      | some ([], hunks) => some hunks
      | _ => none
    else none
  | _ => none

/-- Applies hunks to the lines of the old version from line `i` on, where line `j` of the new version
is. Each must stand where its ranges say, and the lines that it keeps or removes must be there. -/
def applyHunks? : (i j : Nat) → List Hunk → List Text → Option (List Text)
  | _, _, [], lines => some lines
  | i, j, h :: hs, lines =>
    let gap := h.oldStart - i
    if i + gap = h.oldStart ∧ j + gap = h.newStart ∧ gap ≤ lines.length ∧
        oldSide h.lines <+: lines.drop gap then do
      let rest ← applyHunks? h.oldStop h.newStop hs
        (lines.drop (gap + (oldSide h.lines).length))
      some (lines.take gap ++ newSide h.lines ++ rest)
    else none

def patched? (difference old : Text) : Option Text := do
  let hunks ← readHunks? difference
  let lines ← applyHunks? 0 0 hunks (brokenLines old)
  some lines.flatten

def FeedsLast (line : Text) : Prop := '\n' ∉ line.dropLast

theorem feedsLast_cases {line : Text} (h : FeedsLast line) :
    '\n' ∉ line ∨ ∃ front, line = front ++ ['\n'] ∧ '\n' ∉ front := by
  rcases List.eq_nil_or_concat line with rfl | ⟨front, c, rfl⟩
  · exact .inl (by simp)
  · rw [List.concat_eq_append] at h ⊢
    have hfront : '\n' ∉ front := by simpa [FeedsLast] using h
    by_cases hc : c = '\n'
    · exact .inr ⟨front, by rw [hc], hfront⟩
    · exact .inl (by simp [hfront, Ne.symm hc])

theorem FeedsLast.cons {line : Text} (h : FeedsLast line) {c : Char} (hc : c ≠ '\n') :
    FeedsLast (c :: line) := by
  rcases feedsLast_cases h with hnone | ⟨front, rfl, hfront⟩
  · exact fun hmem => by
      rcases List.mem_cons.mp ((List.dropLast_subset _) hmem) with rfl | hmem
      · exact hc rfl
      · exact hnone hmem
  · rw [FeedsLast, ← List.cons_append, List.dropLast_concat]
    simp [hfront, Ne.symm hc]

theorem feedsLast_concat {front : Text} (h : '\n' ∉ front) (c : Char) : FeedsLast (front ++ [c]) := by
  rwa [FeedsLast, List.dropLast_concat]

theorem feedsLast_brokenLinesFrom {line text : Text} (h : '\n' ∉ line) :
    ∀ l ∈ brokenLinesFrom line text, FeedsLast l := by
  fun_induction brokenLinesFrom line text with
  | case1 line hempty => simp
  | case2 line hne =>
    intro l hl
    obtain rfl := List.mem_singleton.mp hl
    exact fun hmem => h (List.mem_reverse.mp (List.dropLast_subset _ hmem))
  | case3 line text ih =>
    refine List.forall_mem_cons.mpr ⟨?_, ih (by simp)⟩
    rw [List.reverse_cons]
    exact feedsLast_concat (by simpa using h) _
  | case4 line c text _ hbreak ih =>
    refine List.forall_mem_cons.mpr ⟨?_, ih (by simp)⟩
    rw [List.reverse_cons]
    exact feedsLast_concat (by simpa using h) _
  | case5 line c text _ hbreak ih =>
    have hc : c ≠ '\n' := by
      rintro rfl
      exact hbreak rfl
    exact ih (by simp [h, Ne.symm hc])

theorem feedsLast_brokenLines (text : Text) : ∀ line ∈ brokenLines text, FeedsLast line :=
  feedsLast_brokenLinesFrom (by simp)

/-- A line that can stand in a difference: it is not taken for the remark. -/
structure IsPlainLine (line : Text) : Prop where
  feedsLast : FeedsLast line
  head_ne : line.head? ≠ some '\\'
  ne_nil : line ≠ []

theorem closed_concat (front : Text) : closed (front ++ ['\n']) = front ++ ['\n'] := by
  rw [closed, if_pos List.getLast?_concat]

theorem closed_prefix (line : Text) : line <+: closed line := by
  unfold closed
  split
  · exact List.prefix_rfl
  · exact List.prefix_append _ _

theorem head?_lines_ne_remark {text : Text} (h : text.head? ≠ some '\\') :
    (lines text).head? ≠ some remark := by
  cases hlines : lines text with
  | nil => exact absurd hlines (splitOn_ne_nil _ _)
  | cons line ls =>
    have hprefix := prefix_unlines line ls
    rw [← hlines, unlines_lines] at hprefix
    obtain ⟨rest, rfl⟩ := hprefix
    rintro ⟨⟩
    exact h rfl

theorem head?_flatMap_closed {items : List Text} (h : ∀ line ∈ items, IsPlainLine line) :
    (items.flatMap closed).head? ≠ some '\\' := by
  cases items with
  | nil => simp
  | cons line items =>
    obtain ⟨hline, -⟩ := List.forall_mem_cons.mp h
    obtain ⟨back, hback⟩ := closed_prefix line
    obtain ⟨c, more, rfl⟩ := List.exists_cons_of_ne_nil hline.ne_nil
    rw [List.flatMap_cons, ← hback]
    exact hline.head_ne

theorem unclosed_cons (line : Text) {rest : List Text} (hne : rest ≠ [])
    (h : rest.head? ≠ some remark) : unclosed (line :: rest) = (line ++ ['\n']) :: unclosed rest := by
  cases rest with
  | nil => exact absurd rfl hne
  | cons next rest =>
    rw [unclosed, if_neg]
    rintro rfl
    exact h rfl

theorem unclosed_lines_flatMap_closed {items : List Text} (h : ∀ line ∈ items, IsPlainLine line) :
    unclosed (lines (items.flatMap closed)) = items := by
  induction items with
  | nil => rfl
  | cons line items ih =>
    obtain ⟨hline, hitems⟩ := List.forall_mem_cons.mp h
    rw [List.flatMap_cons]
    rcases feedsLast_cases hline.feedsLast with hnone | ⟨front, rfl, hfront⟩
    · have hclosed : closed line = line ++ '\n' :: (remark ++ ['\n']) := by
        rw [closed, if_neg]
        · rfl
        · exact fun hlast => hnone (List.mem_of_getLast? hlast)
      rw [hclosed, List.append_assoc, List.cons_append, lines_append_of_not_mem hnone,
        List.append_assoc, List.singleton_append, lines_append_of_not_mem (by decide), unclosed,
        if_pos rfl, ih hitems]
    · have hne : lines (items.flatMap closed) ≠ [] := splitOn_ne_nil _ _
      rw [closed_concat, List.append_assoc, List.singleton_append, lines_append_of_not_mem hfront,
        unclosed_cons front hne (head?_lines_ne_remark (head?_flatMap_closed hitems)), ih hitems]

theorem readNumber?_ofNat (n : Nat) : readNumber? (ofNat n) = some n := by
  rw [readNumber?, if_pos ⟨ofNat_ne_nil n, List.all_eq_true.mpr fun _ => isDigit_of_mem_ofNat⟩,
    ofDigitChars_ofNat]

theorem readRange?_rangeText {start stop : Nat} (h : start ≤ stop) :
    readRange? (rangeText start stop) = some (start, stop) := by
  have hcomma : ∀ n, ',' ∉ ofNat n := not_mem_ofNat rfl
  have hpair : ∀ m n, splitOn ',' (ofNat m ++ ',' :: ofNat n) = [ofNat m, ofNat n] := by
    intro m n
    rw [splitOn_append, splitOn_of_not_mem (hcomma m), splitOn_of_not_mem (hcomma n)]
    rfl
  obtain ⟨length, rfl⟩ := Nat.exists_eq_add_of_le h
  rw [rangeText, Nat.add_sub_cancel_left]
  match length with
  | 0 =>
    change readRange? (ofNat start ++ ',' :: ofNat 0) = _
    simp only [readRange?, hpair, readNumber?_ofNat]
    rfl
  | 1 =>
    change readRange? (ofNat (start + 1)) = _
    simp only [readRange?, splitOn_of_not_mem (hcomma _), readNumber?_ofNat]
  | length + 2 =>
    have htext : glue [ofNat (start + 1), ",", ofNat (length + 2)] =
        ofNat (start + 1) ++ ',' :: ofNat (length + 2) := by simp [glue]
    rw [if_neg (by omega), if_neg (by omega), htext]
    simp only [readRange?, hpair, readNumber?_ofNat]

def Hunk.head (h : Hunk) : Text :=
  .glue ["@@ -", rangeText h.oldStart h.oldStop, " +", rangeText h.newStart h.newStop, " @@\n"]

theorem not_mem_rangeText {c : Char} (hdigit : c.isDigit = false) (hcomma : c ≠ ',')
    (start stop : Nat) : c ∉ rangeText start stop := by
  have hnumber : ∀ n, c ∉ ofNat n := not_mem_ofNat hdigit
  have hzero : c ≠ '0' := by
    rintro rfl
    cases hdigit
  unfold rangeText
  dsimp only
  split
  · exact hnumber _
  · split
    · simp [hnumber, hcomma, hzero]
    · simp [glue, hnumber, hcomma]

theorem readRanges?_head {h : Hunk} (hcounted : h.IsCounted) :
    readRanges? h.head = some ((h.oldStart, h.oldStop), (h.newStart, h.newStop)) := by
  obtain ⟨hold, hnew⟩ := hcounted
  have hsplit : splitOn ' ' h.head =
      ["@@".toList, '-' :: rangeText h.oldStart h.oldStop, '+' :: rangeText h.newStart h.newStop,
        "@@\n".toList] := by
    have hhead : h.head = "@@".toList ++ ' ' :: ('-' :: rangeText h.oldStart h.oldStop ++
        ' ' :: ('+' :: rangeText h.newStart h.newStop ++ ' ' :: "@@\n".toList)) := by
      simp [Hunk.head, glue]
    have hblank : ∀ start stop, ' ' ∉ rangeText start stop :=
      not_mem_rangeText rfl (by decide)
    rw [hhead, splitOn_append, splitOn_append, splitOn_append, splitOn_of_not_mem (by decide),
      splitOn_of_not_mem (by simp [hblank]), splitOn_of_not_mem (by simp [hblank]),
      splitOn_of_not_mem (by decide)]
    rfl
  have hold : readRange? (rangeText h.oldStart h.oldStop) = some (h.oldStart, h.oldStop) :=
    readRange?_rangeText (by omega)
  have hnew : readRange? (rangeText h.newStart h.newStop) = some (h.newStart, h.newStop) :=
    readRange?_rangeText (by omega)
  rw [readRanges?, hsplit]
  simp [hold, hnew]

/-! ### Hunks -/

/-- A hunk whose ranges fit its lines, and whose lines can be told apart. -/
structure Hunk.IsReadable (h : Hunk) : Prop where
  counted : h.IsCounted
  feedsLast : ∀ line ∈ h.lines, FeedsLast line.2

def Hunk.items (h : Hunk) : List Text := h.head :: h.lines.map fun line => line.1.char :: line.2

theorem Mark.char_ne (m : Mark) : m.char ≠ '\n' ∧ m.char ≠ '\\' ∧ m.char ≠ '@' := by
  cases m <;> decide

theorem Mark.ofChar?_char (m : Mark) : Mark.ofChar? m.char = some m := by
  cases m <;> rfl

theorem Hunk.exists_head (h : Hunk) : ∃ front, h.head = front ++ ['\n'] ∧ '\n' ∉ front := by
  have hfeed : ∀ start stop, '\n' ∉ rangeText start stop := not_mem_rangeText rfl (by decide)
  refine ⟨glue ["@@ -", rangeText h.oldStart h.oldStop, " +", rangeText h.newStart h.newStop,
    " @@"], by simp [Hunk.head, glue], by simp [glue, hfeed]⟩

theorem Hunk.render_eq (h : Hunk) : h.render = h.items.flatMap closed := by
  obtain ⟨front, hhead, -⟩ := h.exists_head
  rw [Hunk.items, List.flatMap_cons, hhead, closed_concat, ← hhead, List.flatMap_map]
  rfl

theorem Hunk.isPlainLine_of_mem_items {h : Hunk} (hreadable : h.IsReadable) :
    ∀ line ∈ h.items, IsPlainLine line := by
  refine List.forall_mem_cons.mpr ⟨⟨?_, by simp [Hunk.head, glue], by simp [Hunk.head, glue]⟩, ?_⟩
  · obtain ⟨front, hhead, hfront⟩ := h.exists_head
    rw [hhead]
    exact feedsLast_concat hfront _
  · intro item hitem
    obtain ⟨⟨mark, line⟩, hline, rfl⟩ := List.mem_map.mp hitem
    obtain ⟨hfeed, hslash, -⟩ := mark.char_ne
    exact ⟨(hreadable.feedsLast _ hline).cons hfeed, by simpa using hslash, by simp⟩

theorem readHunksFrom?_lines (lines : List (Mark × Text)) {rest : List Text} {hs : List Hunk}
    (h : readHunksFrom? rest = some ([], hs)) :
    readHunksFrom? (lines.map (fun line => line.1.char :: line.2) ++ rest) = some (lines, hs) := by
  induction lines with
  | nil => exact h
  | cons line lines ih =>
    obtain ⟨mark, text⟩ := line
    rw [List.map_cons, List.cons_append, readHunksFrom?, ih]
    simp [mark.char_ne.2.2, mark.ofChar?_char]

theorem readHunksFrom?_items {hs : List Hunk} (h : ∀ hunk ∈ hs, hunk.IsReadable) :
    readHunksFrom? (hs.flatMap Hunk.items) = some ([], hs) := by
  induction hs with
  | nil => rfl
  | cons hunk hs ih =>
    obtain ⟨hhunk, hhs⟩ := List.forall_mem_cons.mp h
    obtain ⟨rest, hrest⟩ : ∃ rest, hunk.head = '@' :: rest := ⟨_, rfl⟩
    have hranges := readRanges?_head hhunk.counted
    rw [List.flatMap_cons, Hunk.items, List.cons_append, readHunksFrom?,
      readHunksFrom?_lines hunk.lines (ih hhs)]
    rw [hrest] at hranges ⊢
    simp [hranges, hhunk.counted]

def nameLine (mark path : Text) : Text := .glue [mark, path, "\n"]

theorem nameLine_eq (mark path : Text) : nameLine mark path = mark ++ path ++ ['\n'] := by
  simp [nameLine, glue]

theorem isPlainLine_nameLine {mark path : Text} (hmark : '\n' ∉ mark) (hpath : '\n' ∉ path)
    (hhead : mark.head? ≠ some '\\') (hne : mark ≠ []) : IsPlainLine (nameLine mark path) := by
  obtain ⟨c, rest, rfl⟩ := List.exists_cons_of_ne_nil hne
  rw [nameLine_eq]
  refine ⟨feedsLast_concat (by simpa [hpath] using hmark) _, hhead, by simp⟩

theorem unified_eq {n : Nat} {path old new : Text} {hs : List Hunk}
    (h : hunks n (brokenLines old) (brokenLines new) = hs) (hne : hs ≠ []) :
    unified n path old new =
      (nameLine "--- a/" path :: nameLine "+++ b/" path :: hs.flatMap Hunk.items).flatMap
        closed := by
  have hnames : closed (nameLine "--- a/" path) ++ closed (nameLine "+++ b/" path) =
      .glue ["--- a/", path, "\n+++ b/", path, "\n"] := by
    rw [nameLine_eq, nameLine_eq, closed_concat, closed_concat]
    simp [glue]
  have hrender : hs.flatMap Hunk.render = (hs.flatMap Hunk.items).flatMap closed := by
    rw [List.flatMap_assoc, funext Hunk.render_eq]
  unfold unified
  rw [h, List.flatMap_cons, List.flatMap_cons, ← List.append_assoc, hnames, ← hrender]
  cases hs with
  | nil => exact absurd rfl hne
  | cons hunk hs => rfl

theorem readHunks?_unified {n : Nat} {path old new : Text} {hs : List Hunk} (hpath : '\n' ∉ path)
    (hhunks : hunks n (brokenLines old) (brokenLines new) = hs)
    (h : ∀ hunk ∈ hs, hunk.IsReadable) : readHunks? (unified n path old new) = some hs := by
  by_cases hne : hs = []
  · subst hne
    rw [unified, hhunks]
    rfl
  · have hplain : ∀ line ∈ nameLine "--- a/" path :: nameLine "+++ b/" path :: hs.flatMap Hunk.items,
        IsPlainLine line := by
      refine List.forall_mem_cons.mpr ⟨?_, List.forall_mem_cons.mpr ⟨?_, fun line hline => ?_⟩⟩
      · exact isPlainLine_nameLine (by decide) hpath (by decide) (by decide)
      · exact isPlainLine_nameLine (by decide) hpath (by decide) (by decide)
      · obtain ⟨hunk, hhunk, hline⟩ := List.mem_flatMap.mp hline
        exact Hunk.isPlainLine_of_mem_items (h hunk hhunk) line hline
    have hold : startsWith (nameLine "--- a/" path) "--- " = true := rfl
    have hnew : startsWith (nameLine "+++ b/" path) "+++ " = true := rfl
    rw [readHunks?, unified_eq hhunks hne, unclosed_lines_flatMap_closed hplain]
    dsimp only
    rw [if_pos ⟨hold, hnew⟩, readHunksFrom?_items h]

end Diff
end CodeGraft
