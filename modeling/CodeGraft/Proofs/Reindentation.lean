import CodeGraft.Edit.NameMatch
import CodeGraft.Proofs.Sections

/-!
# Code moved to another indentation and back

Moved code has the lines of the code that it comes from. Its first line is the same, and so are the
blank ones and those that do not start with the indentation left behind. On all others that
indentation is exchanged for the new one. Two moves in a row are one move, unless the second takes
a line along that the first one did not. So code can be moved back if all its lines go along.
-/

namespace CodeGraft

open Text

def IsIndent (text : Text) : Prop := ∀ c ∈ text, c = ' ' ∨ c = '\t'

instance (text : Text) : Decidable (IsIndent text) :=
  List.decidableBAll (fun c => c = ' ' ∨ c = '\t') text

theorem IsIndent.blank {indent : Text} (h : IsIndent indent) : isBlankText indent = true := by
  rw [isBlankText, List.all_eq_true]
  intro c hc
  rcases h c hc with rfl | rfl <;> rfl

theorem IsIndent.feed_not_mem {indent : Text} (h : IsIndent indent) : '\n' ∉ indent := by
  intro hfeed
  rcases h _ hfeed with heq | heq <;> cases heq

theorem isIndent_indentAt (text : Text) (offset : Nat) : IsIndent (indentAt text offset) := by
  intro c hc
  simpa using List.mem_takeWhile_imp hc

/-- The blanks and tabs that lead the line of an offset. -/
structure LeadsLine (text : Text) (offset : Nat) (indent : Text) : Prop where
  indented : IsIndent indent
  exists_line : ∃ above front rest, text.take offset = above ++ front ∧
    above.getLast?.all (· == '\n') = true ∧ '\n' ∉ front ∧
    text.drop above.length = indent ++ rest ∧ ∀ c ∈ rest.head?, ¬(c = ' ' ∨ c = '\t')

theorem LeadsLine.eq_indentAt {text indent : Text} {offset : Nat} (h : LeadsLine text offset indent)
    (hle : offset ≤ text.length) : indent = indentAt text offset := by
  obtain ⟨above, front, rest, htake, habove, hfront, hdrop, hrest⟩ := h.exists_line
  have hlength : offset - front.length = above.length := by
    have hsum := congrArg List.length htake
    rw [List.length_take, List.length_append] at hsum
    omega
  have hindent : ∀ c ∈ indent, (decide (c = ' ') || decide (c = '\t')) = true := by
    intro c hc
    simpa using h.indented c hc
  have hstops : rest.takeWhile (fun c => decide (c = ' ') || decide (c = '\t')) = [] := by
    cases rest with
    | nil => rfl
    | cons c rest => simpa using hrest c rfl
  rw [indentAt, htake, Text.takeWhile_reverse_append habove hfront, List.length_reverse, hlength,
    hdrop, List.takeWhile_append_of_pos hindent, hstops, List.append_nil]

theorem leadsLine_indentAt {text : Text} {offset : Nat} (h : offset ≤ text.length) :
    LeadsLine text offset (indentAt text offset) := by
  let front := ((text.take offset).reverse.takeWhile (· ≠ '\n')).reverse
  let above := ((text.take offset).reverse.dropWhile (· ≠ '\n')).reverse
  have htake : text.take offset = above ++ front := by
    rw [← List.reverse_append, List.takeWhile_append_dropWhile, List.reverse_reverse]
  have hlength : offset - front.length = above.length := by
    have hsum := congrArg List.length htake
    rw [List.length_take, List.length_append] at hsum
    omega
  have habove : above.getLast?.all (· == '\n') = true := by
    rw [List.getLast?_reverse]
    have hhead := List.head?_dropWhile_not (· ≠ '\n') (text.take offset).reverse
    cases hdrop : ((text.take offset).reverse.dropWhile (· ≠ '\n')).head? with
    | none => rfl
    | some c =>
      rw [hdrop] at hhead
      simpa using hhead
  have hfront : '\n' ∉ front := by
    intro hmem
    simpa using List.mem_takeWhile_imp (List.mem_reverse.mp hmem)
  have hindent : indentAt text offset =
      (text.drop above.length).takeWhile fun c => c = ' ' || c = '\t' := by
    rw [indentAt, ← hlength, List.length_reverse]
  refine ⟨isIndent_indentAt text offset, above, front,
    (text.drop above.length).dropWhile fun c => c = ' ' || c = '\t', htake, habove, hfront, ?_, ?_⟩
  · rw [hindent, List.takeWhile_append_dropWhile]
  · intro c hc
    have hhead := List.head?_dropWhile_not (fun c => c = ' ' || c = '\t') (text.drop above.length)
    rw [hc] at hhead
    simpa using hhead

theorem leadsLine_iff {text indent : Text} {offset : Nat} (h : offset ≤ text.length) :
    LeadsLine text offset indent ↔ indent = indentAt text offset := by
  constructor
  · intro hleads
    exact hleads.eq_indentAt h
  · rintro rfl
    exact leadsLine_indentAt h

theorem exists_lines_eq_cons (text : Text) : ∃ first body, lines text = first :: body :=
  List.exists_cons_of_ne_nil (splitOn_ne_nil '\n' text)

theorem lines_injective : Function.Injective lines :=
  Function.LeftInverse.injective unlines_lines

section

variable {old new content first line : Text} {body : List Text}

theorem feed_not_mem_reindentLine (hold : '\n' ∉ old) (hline : '\n' ∉ line) :
    '\n' ∉ reindentLine old new line := by
  rcases reindentLine_cases old new line with hkept | ⟨rest, rfl, hmoved⟩
  · rwa [hkept]
  · rw [hmoved]
    simp only [List.mem_append, not_or] at hline ⊢
    exact ⟨hold, hline.2⟩

theorem lines_reindent (hold : '\n' ∉ old) (new : Text) (h : lines content = first :: body) :
    lines (reindent content old new) = first :: body.map (reindentLine old new) := by
  by_cases hsame : old = new
  · subst hsame
    rw [reindent_self, List.map_id'' (reindentLine_self old), h]
  · have hfeed : ∀ line ∈ first :: body, '\n' ∉ line := by
      intro line hline
      rw [← h] at hline
      exact not_mem_of_mem_splitOn hline
    simp only [reindent, hsame, if_false, h]
    refine lines_unlines (List.cons_ne_nil _ _) ?_
    intro line hline
    rcases List.mem_cons.mp hline with rfl | hline
    · exact hfeed line (List.mem_cons_self ..)
    · obtain ⟨before, hbefore, rfl⟩ := List.mem_map.mp hline
      exact feed_not_mem_reindentLine hold (hfeed before (List.mem_cons_of_mem _ hbefore))

theorem head?_lines_reindent (hold : '\n' ∉ old) (new content : Text) :
    (lines (reindent content old new)).head? = (lines content).head? := by
  obtain ⟨first, body, hlines⟩ := exists_lines_eq_cons content
  rw [lines_reindent hold new hlines, hlines, List.head?_cons, List.head?_cons]

theorem length_lines_reindent (hold : '\n' ∉ old) (new content : Text) :
    (lines (reindent content old new)).length = (lines content).length := by
  obtain ⟨first, body, hlines⟩ := exists_lines_eq_cons content
  rw [lines_reindent hold new hlines, hlines, List.length_cons, List.length_cons, List.length_map]

theorem getElem?_lines_reindent (hold : '\n' ∉ old) (new content : Text) (i : Nat) :
    (lines (reindent content old new))[i + 1]? =
      (lines content)[i + 1]?.map (reindentLine old new) := by
  obtain ⟨first, body, hlines⟩ := exists_lines_eq_cons content
  rw [lines_reindent hold new hlines, hlines, List.getElem?_cons_succ, List.getElem?_cons_succ,
    List.getElem?_map]

theorem getElem?_lines_reindent_of_eq {i : Nat} (hold : '\n' ∉ old)
    (hline : (lines content)[i]? = some line) (hkept : reindentLine old new line = line) :
    (lines (reindent content old new))[i]? = some line := by
  cases i with
  | zero =>
    rw [← List.head?_eq_getElem?] at hline ⊢
    rw [head?_lines_reindent hold, hline]
  | succ i => rw [getElem?_lines_reindent hold, hline, Option.map_some, hkept]

/-- The lines of code that was moved from the indentation `new` to the indentation `old`, beside
those that it had before. -/
structure IsReindented (old new content moved : Text) : Prop where
  length_eq : (lines moved).length = (lines content).length
  first_eq : (lines moved).head? = (lines content).head?
  blank : ∀ (i : Nat) (line : Text), (lines content)[i]? = some line →
    isBlankText line = true → (lines moved)[i]? = some line
  apart : ∀ (i : Nat) (line : Text), (lines content)[i]? = some line →
    ¬new <+: line → (lines moved)[i]? = some line
  indented : ∀ (i : Nat) (rest : Text), 0 < i → (lines content)[i]? = some (new ++ rest) →
    isBlankText (new ++ rest) = false → (lines moved)[i]? = some (old ++ rest)

theorem IsReindented.unique {x y : Text} (hx : IsReindented old new content x)
    (hy : IsReindented old new content y) : x = y := by
  refine lines_injective (List.ext_getElem? fun i => ?_)
  cases hline : (lines content)[i]? with
  | none =>
    have hbehind := List.getElem?_eq_none_iff.mp hline
    rw [List.getElem?_eq_none (hx.length_eq ▸ hbehind),
      List.getElem?_eq_none (hy.length_eq ▸ hbehind)]
  | some line =>
    cases hblank : isBlankText line with
    | true => rw [hx.blank i line hline hblank, hy.blank i line hline hblank]
    | false =>
      by_cases hindent : new <+: line
      · obtain ⟨rest, rfl⟩ := hindent
        rcases Nat.eq_zero_or_pos i with rfl | hpos
        · rw [← List.head?_eq_getElem?, ← List.head?_eq_getElem?, hx.first_eq, hy.first_eq]
        · rw [hx.indented i rest hpos hline hblank, hy.indented i rest hpos hline hblank]
      · rw [hx.apart i line hline hindent, hy.apart i line hline hindent]

theorem isReindented_reindent (hold : '\n' ∉ old) (new content : Text) :
    IsReindented old new content (reindent content old new) where
  length_eq := length_lines_reindent hold new content
  first_eq := head?_lines_reindent hold new content
  blank _ _ hline hblank :=
    getElem?_lines_reindent_of_eq hold hline (reindentLine_blank old new hblank)
  apart _ _ hline hindent :=
    getElem?_lines_reindent_of_eq hold hline (reindentLine_apart old hindent)
  indented i rest hpos hline hblank := by
    obtain ⟨i, rfl⟩ := Nat.exists_eq_add_one.mpr hpos
    rw [getElem?_lines_reindent hold, hline, Option.map_some, reindentLine_indented old hblank]

theorem isReindented_iff (hold : '\n' ∉ old) (new content moved : Text) :
    IsReindented old new content moved ↔ moved = reindent content old new := by
  constructor
  · intro h
    exact h.unique (isReindented_reindent hold new content)
  · rintro rfl
    exact isReindented_reindent hold new content

end

/-! ### Moving twice -/

section

variable {a b c line : Text}

/-- A line that the first move leaves where it is may look like one that it moved. -/
theorem reindentLine_reindentLine_iff (hc : isBlankText c = true) :
    reindentLine a b (reindentLine b c line) = reindentLine a c line ↔
      (isBlankText line = false → b <+: line → c <+: line) ∨ a = b := by
  cases hblank : isBlankText line with
  | true => simp [reindentLine_blank, hblank]
  | false =>
    by_cases hindent : c <+: line
    · obtain ⟨rest, rfl⟩ := hindent
      -- The indentation is blank, so what makes the line count goes along.
      have hrest : isBlankText rest = false := by
        simpa [isBlankText_append, hc] using hblank
      have hmoved : isBlankText (b ++ rest) = false := by
        simp [isBlankText_append, hrest]
      rw [reindentLine_indented b hblank, reindentLine_indented a hblank,
        reindentLine_indented a hmoved]
      simp
    · rw [reindentLine_apart b hindent, reindentLine_apart a hindent]
      by_cases hlooks : b <+: line
      · obtain ⟨rest, rfl⟩ := hlooks
        rw [reindentLine_indented a hblank]
        simp [hindent]
      · rw [reindentLine_apart a hlooks]
        simp [hlooks]

/-- Moving code from `c` to `b` and from there to `a` is moving it from `c` to `a`, unless a line
that did not start with `c` starts with `b`. -/
theorem reindent_reindent_iff (ha : IsIndent a) (hb : IsIndent b) (hc : IsIndent c)
    (content : Text) :
    reindent (reindent content b c) a b = reindent content a c ↔
      (∀ line ∈ (lines content).tail, isBlankText line = false → b <+: line → c <+: line) ∨
        a = b := by
  obtain ⟨first, body, hlines⟩ := exists_lines_eq_cons content
  have hfirst := lines_reindent hb.feed_not_mem c hlines
  rw [← lines_injective.eq_iff, lines_reindent ha.feed_not_mem b hfirst,
    lines_reindent ha.feed_not_mem c hlines, List.map_map, hlines]
  simp only [List.cons.injEq, true_and, List.map_eq_map_iff, Function.comp_apply,
    reindentLine_reindentLine_iff hc.blank, List.tail_cons]
  by_cases hsame : a = b <;> simp [hsame]

theorem reindent_back_iff (ha : IsIndent a) (hb : IsIndent b) (content : Text) :
    reindent (reindent content a b) b a = content ↔
      ∀ line ∈ (lines content).tail, isBlankText line = false → a <+: line → b <+: line := by
  have htwice := reindent_reindent_iff hb ha hb content
  rw [reindent_self] at htwice
  rw [htwice, or_iff_left_iff_imp]
  rintro rfl line - - hindent
  exact hindent

end

/-- Code whose lines all go along from `b` to `a` comes back as it was. A move keeps the number of
lines, the first line, the blank lines and those that do not start with `b`, puts `a` in the place
of `b` on the others, and is known by that. -/
theorem reindent_restores {a b : Text} (ha : IsIndent a) (hb : IsIndent b) (content : Text) :
    ((∀ line ∈ (lines content).tail, isBlankText line = false → b <+: line) →
      reindent (reindent content a b) b a = content) ∧
    ∀ moved, IsReindented a b content moved ↔ moved = reindent content a b := by
  constructor
  · intro hindented
    apply (reindent_back_iff ha hb content).mpr
    intro line hline hblank _
    exact hindented line hline hblank
  · intro moved
    exact isReindented_iff ha.feed_not_mem b content moved

/-- A body with a line of three blanks and an empty one, which stay as they are both ways. -/
theorem reindent_restores_of_tab :
    let content : Text := "def f():\n    if x:\n   \n\n        return 1\n    return 2"
    let moved : Text := "def f():\n\tif x:\n   \n\n\t    return 1\n\treturn 2"
    IsIndent ['\t'] ∧ IsIndent "    ".toList ∧
      (∀ line ∈ (lines content).tail, isBlankText line = false → "    ".toList <+: line) ∧
      reindent content ['\t'] "    " = moved ∧ reindent moved "    " ['\t'] = content ∧
      IsReindented ['\t'] "    " content moved := by
  intro content moved
  have htab : IsIndent ['\t'] := by decide
  have hblanks : IsIndent "    ".toList := by decide
  have hindented : ∀ line ∈ (lines content).tail, isBlankText line = false →
      "    ".toList <+: line := by decide +kernel
  have hmoved : reindent content ['\t'] "    " = moved := by decide +kernel
  obtain ⟨hback, hlines⟩ := reindent_restores htab hblanks content
  refine ⟨htab, hblanks, hindented, hmoved, ?_, (hlines moved).mpr hmoved.symm⟩
  rw [← hmoved]
  exact hback hindented

end CodeGraft
