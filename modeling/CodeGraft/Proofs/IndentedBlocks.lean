import CodeGraft.Proofs.IndentedHeads
import CodeGraft.Proofs.Sections

/-!
# Blocks of indented callables

The block behind the colon of a header takes the lines below that are blank, indented deeper than the
line of the header, or begin inside a triple-quoted literal that the block has opened. It ends with the
last of them that is not blank, so the code below is not indented deeper. If there is code behind the
colon on its line, the block is this code, whatever stands below.
-/

namespace CodeGraft

open Text Pattern Cursor

/-- Each line with code is indented deeper than the header or begins inside a literal. The first line
begins inside `literal`, if any. -/
def Belongs (header : Nat) : (literal : Option Quote) → List Text → Prop
  | _, [] => True
  | literal, line :: ls =>
    (isBlankText line = false → header < indentWidth line ∨ literal ≠ none) ∧
      Belongs header (openLiteralAfter literal line) ls

section Belongs

variable {header : Nat} {literal : Option Quote} {ls : List Text}

theorem belongs_iff : Belongs header literal ls ↔
    ∀ i line, ls[i]? = some line → isBlankText line = false →
      header < indentWidth line ∨ (ls.take i).foldl openLiteralAfter literal ≠ none := by
  induction ls generalizing literal with
  | nil => simp [Belongs]
  | cons first ls ih =>
    rw [Belongs, ih]
    constructor
    · rintro ⟨hfirst, hls⟩ i line hline hcode
      cases i with
      | zero =>
        obtain rfl : first = line := by simpa using hline
        exact hfirst hcode
      | succ i => exact hls i line (by simpa using hline) hcode
    · intro h
      exact ⟨fun hcode => h 0 first rfl hcode, fun i line hline hcode => h (i + 1) line hline hcode⟩

theorem Belongs.trimEnd_last {last : Text} (hcode : isBlankText last = false)
    (h : Belongs header literal (ls ++ [last])) : Belongs header literal (ls ++ [trimEnd last]) := by
  induction ls generalizing literal with
  | nil =>
    refine ⟨fun _ => ?_, trivial⟩
    rw [indentWidth_trimEnd hcode]
    exact h.1 hcode
  | cons line ls ih => exact ⟨h.1, ih h.2⟩

end Belongs

def codeBelow? (text : Text) (offset : Nat) : Option Text :=
  (lines (text.drop offset)).tail.find? (!isBlankText ·)

/-- The code below the line that holds an offset, if any, is not indented deeper than a width. -/
def ShallowBelow (text : Text) (offset width : Nat) : Prop :=
  ∀ line ∈ codeBelow? text offset, indentWidth line ≤ width

instance (text : Text) (offset width : Nat) : Decidable (ShallowBelow text offset width) :=
  inferInstanceAs (Decidable (∀ line ∈ codeBelow? text offset, indentWidth line ≤ width))

namespace Shape

/-- A block ends with its last line of code, and the code behind that is not indented deeper than the
header. -/
theorem blockStop_spec (header : Nat) (literal : Option Quote) (start stop : Nat) (ls : List Text) :
    ∃ body rest, ls = body ++ rest ∧ Belongs header literal body ∧
      (∀ line ∈ rest.find? (!isBlankText ·), indentWidth line ≤ header) ∧
      ((body = [] ∧ blockStop header literal start stop ls = stop) ∨
        ∃ init last, body = init ++ [last] ∧ isBlankText last = false ∧
          blockStop header literal start stop ls =
            start + linesLength init + (trimEnd last).length) := by
  induction ls generalizing literal start stop with
  | nil => exact ⟨[], [], rfl, trivial, by simp, Or.inl ⟨rfl, rfl⟩⟩
  | cons line ls ih =>
    simp only [blockStop]
    split
    next hblank =>
      -- a blank line is in the block only if code of the block follows
      obtain ⟨body, rest, rfl, hbelongs, hrest, hends⟩ :=
        ih (openLiteralAfter literal line) (start + line.length + 1) stop
      rcases hends with ⟨rfl, hstop⟩ | ⟨init, last, rfl, hlast, hstop⟩
      · refine ⟨[], line :: rest, rfl, trivial, ?_, Or.inl ⟨rfl, hstop⟩⟩
        rwa [List.find?_cons_of_neg (by simp [hblank])]
      · refine ⟨line :: (init ++ [last]), rest, rfl, ⟨?_, hbelongs⟩, hrest,
          Or.inr ⟨line :: init, last, rfl, hlast, ?_⟩⟩
        · intro hcode
          rw [hblank] at hcode
          cases hcode
        · rw [hstop, linesLength]
          omega
    next hcode =>
      have hcode : isBlankText line = false := by simpa using hcode
      split
      next hshallow =>
        refine ⟨[], line :: ls, rfl, trivial, ?_, Or.inl ⟨rfl, rfl⟩⟩
        rw [List.find?_cons_of_pos (by simp [hcode])]
        rintro _ ⟨⟩
        exact hshallow.2
      next hdeep =>
        have hline : header < indentWidth line ∨ literal ≠ none := by
          by_contra hnot
          exact hdeep ⟨by_contra fun h => hnot (Or.inr h), by omega⟩
        obtain ⟨body, rest, rfl, hbelongs, hrest, hends⟩ :=
          ih (openLiteralAfter literal line) (start + line.length + 1) (start + (trimEnd line).length)
        refine ⟨line :: body, rest, rfl, ⟨fun _ => hline, hbelongs⟩, hrest, Or.inr ?_⟩
        rcases hends with ⟨rfl, hstop⟩ | ⟨init, last, rfl, hlast, hstop⟩
        · exact ⟨[], line, rfl, hcode, by rw [hstop, linesLength, Nat.add_zero]⟩
        · refine ⟨line :: init, last, rfl, hlast, ?_⟩
          rw [hstop, linesLength]
          omega

end Shape

def firstLine (text : Text) : Text := text.takeWhile (· ≠ '\n')

theorem length_trailing (ls : List Text) : (trailing ls).length = linesLength ls := by
  induction ls with
  | nil => rfl
  | cons line ls ih =>
    rw [trailing_cons, List.length_cons, List.length_append, ih, linesLength]
    omega

theorem firstLine_append_trailing {first : Text} (h : '\n' ∉ first) (ls : List Text) :
    firstLine (first ++ trailing ls) = first := by
  cases ls with
  | nil =>
    rw [trailing, List.flatMap_nil, List.append_nil]
    exact (Shape.takeWhile_line h []).1
  | cons line ls =>
    rw [trailing_cons]
    exact (Shape.takeWhile_line h _).2

theorem exists_eq_append_trailing (text : Text) :
    ∃ below, text = firstLine text ++ trailing below ∧ '\n' ∉ firstLine text ∧
      ∀ line ∈ below, '\n' ∉ line := by
  obtain ⟨first, below, hlines⟩ := List.exists_cons_of_ne_nil (splitOn_ne_nil '\n' text)
  have hfeed : ∀ line ∈ first :: below, '\n' ∉ line := by
    intro line hline
    rw [← hlines] at hline
    exact not_mem_of_mem_splitOn hline
  obtain ⟨hfirst, hbelow⟩ := List.forall_mem_cons.mp hfeed
  have htext : text = first ++ trailing below := by
    rw [← unlines_cons_eq, ← hlines]
    exact (unlines_lines text).symm
  have hfirstLine : firstLine text = first := by rw [htext, firstLine_append_trailing hfirst]
  rw [hfirstLine]
  exact ⟨below, htext, hfirst, hbelow⟩

theorem tail_lines_append_trailing {first : Text} {ls : List Text} (hfirst : '\n' ∉ first)
    (hls : ∀ line ∈ ls, '\n' ∉ line) : (lines (first ++ trailing ls)).tail = ls := by
  rw [lines_append_trailing hls, lines_of_not_mem hfirst]
  rfl

theorem tail_lines_append {front : Text} (h : '\n' ∉ front) (back : Text) :
    (lines (front ++ back)).tail = (lines back).tail := by
  obtain ⟨below, hback, hfirst, hbelow⟩ := exists_eq_append_trailing back
  have hfeed : '\n' ∉ front ++ firstLine back := by simp [h, hfirst]
  rw [hback, ← List.append_assoc, tail_lines_append_trailing hfeed hbelow,
    tail_lines_append_trailing hfirst hbelow]

theorem exists_getLast?_trimEnd {line : Text} (h : isBlankText line = false) :
    ∃ c ∈ (trimEnd line).getLast?, isBlank c = false := by
  have hne : trimEnd line ≠ [] := by
    rw [Ne, trimEnd_eq_nil_iff, h]
    exact Bool.false_ne_true
  have hlast := List.head?_dropWhile_not isBlank line.reverse
  rw [trimEnd] at hne ⊢
  rw [List.getLast?_reverse]
  cases hrev : line.reverse.dropWhile isBlank with
  | nil => simp [hrev] at hne
  | cons c rest =>
    rw [hrev] at hlast
    exact ⟨c, rfl, by simpa using hlast⟩

/-- What stands behind the colon of a header is a block and what follows the block. -/
structure IsBlock (header : Nat) (inside outside : Text) : Prop where
  belongs : Belongs header none (lines inside).tail
  ends : isBlankText inside = false → ∃ c ∈ inside.getLast?, isBlank c = false
  /-- A block without code ends with the line of the colon. -/
  stays : isBlankText inside = true → '\n' ∉ inside ∧ outside.head?.all (· == '\n') = true
  /-- The code below a block is not indented deeper, if the block is not on the line of the colon. -/
  shallow : isBlankText (firstLine (inside ++ outside)) = true →
    ∀ line ∈ (lines outside).tail.find? (!isBlankText ·), indentWidth line ≤ header
  /-- Code on the line of the colon is the whole block. -/
  one_line : isBlankText (firstLine (inside ++ outside)) = false →
    inside = trimEnd (firstLine (inside ++ outside))

section IsBlock

variable {header : Nat} {first last blanks : Text} {init rest : List Text}

theorem isBlock_of_code (hfirst : '\n' ∉ first) (hcode : isBlankText first = false)
    (hsplit : first = trimEnd first ++ blanks) :
    IsBlock header (trimEnd first) (blanks ++ trailing rest) := by
  have hwhole : firstLine (trimEnd first ++ (blanks ++ trailing rest)) = first := by
    rw [← List.append_assoc, ← hsplit, firstLine_append_trailing hfirst]
  have hfeed : '\n' ∉ trimEnd first := fun hmem => hfirst ((trimEnd_isPrefix _).subset hmem)
  refine ⟨?_, fun _ => exists_getLast?_trimEnd hcode, ?_, ?_, ?_⟩
  · rw [lines_of_not_mem hfeed]
    trivial
  · rw [isBlankText_trimEnd, hcode]
    exact fun h => absurd h Bool.false_ne_true
  · rw [hwhole, hcode]
    exact fun h => absurd h Bool.false_ne_true
  · rw [hwhole]
    exact fun _ => rfl

theorem isBlock_of_blank (hfirst : '\n' ∉ first) (hblank : isBlankText first = true)
    (hrest : ∀ line ∈ rest, '\n' ∉ line)
    (hshallow : ∀ line ∈ rest.find? (!isBlankText ·), indentWidth line ≤ header) :
    IsBlock header first (trailing rest) := by
  refine ⟨?_, ?_, fun _ => ⟨hfirst, ?_⟩, fun _ => ?_, ?_⟩
  · rw [lines_of_not_mem hfirst]
    trivial
  · rw [hblank]
    exact fun h => absurd h.symm Bool.false_ne_true
  · cases rest <;> simp [trailing]
  · rwa [← List.nil_append (trailing rest), tail_lines_append_trailing (by simp) hrest]
  · rw [firstLine_append_trailing hfirst, hblank]
    exact fun h => absurd h.symm Bool.false_ne_true

theorem isBlock_of_lines (hfirst : '\n' ∉ first) (hblank : isBlankText first = true)
    (hinit : ∀ line ∈ init, '\n' ∉ line) (hlast : '\n' ∉ last) (hrest : ∀ line ∈ rest, '\n' ∉ line)
    (hcode : isBlankText last = false) (hsplit : last = trimEnd last ++ blanks)
    (hbelongs : Belongs header none (init ++ [last]))
    (hshallow : ∀ line ∈ rest.find? (!isBlankText ·), indentWidth line ≤ header) :
    IsBlock header (first ++ trailing (init ++ [trimEnd last])) (blanks ++ trailing rest) := by
  have hwhole : first ++ trailing (init ++ [trimEnd last]) ++ (blanks ++ trailing rest) =
      first ++ trailing (init ++ [last] ++ rest) := by
    conv => rhs; rw [hsplit]
    simp [trailing]
  have htrimmed : '\n' ∉ trimEnd last := fun hmem => hlast ((trimEnd_isPrefix _).subset hmem)
  have hblanks : '\n' ∉ blanks := fun hmem => hlast (hsplit ▸ List.mem_append_right _ hmem)
  have hinside : ∀ line ∈ init ++ [trimEnd last], '\n' ∉ line := by
    intro line hline
    rcases List.mem_append.mp hline with hline | hline
    · exact hinit line hline
    · rwa [List.mem_singleton.mp hline]
  have hends : first ++ trailing (init ++ [trimEnd last]) =
      (first ++ trailing init ++ ['\n']) ++ trimEnd last := by
    simp [trailing]
  obtain ⟨c, hc, hcblank⟩ := exists_getLast?_trimEnd hcode
  have hclast : (first ++ trailing (init ++ [trimEnd last])).getLast? = some c := by
    rw [hends, List.getLast?_append, Option.mem_def.mp hc]
    rfl
  refine ⟨?_, fun _ => ⟨c, hclast, hcblank⟩, ?_, fun _ => ?_, ?_⟩
  · rw [tail_lines_append_trailing hfirst hinside]
    exact hbelongs.trimEnd_last hcode
  · intro hall
    have := List.all_eq_true.mp hall c (List.mem_of_getLast? hclast)
    rw [hcblank] at this
    cases this
  · rwa [tail_lines_append_trailing hblanks hrest]
  · rw [hwhole, firstLine_append_trailing hfirst, hblank]
    exact fun h => absurd h.symm Bool.false_ne_true

end IsBlock

namespace Shape

theorem blockEnd_eq (header : Nat) {c : Cursor} {first : Text} {below : List Text}
    (hc : c.rest = first ++ trailing below) (hfirst : '\n' ∉ first)
    (hbelow : ∀ line ∈ below, '\n' ∉ line) :
    blockEnd header c =
      c.skip (if isBlankText first
        then blockStop header none (first.length + 1) first.length below
        else (trimEnd first).length) := by
  cases below with
  | nil =>
    have hrest : c.rest = first := by simpa [trailing] using hc
    rw [blockEnd_of_line header (hrest ▸ hfirst), hrest, blockStop]
  | cons line below =>
    have hrest : c.rest = first ++ '\n' :: (line ++ trailing below) := by rw [hc, trailing_cons]
    obtain ⟨hline, hls⟩ := List.forall_mem_cons.mp hbelow
    rw [blockEnd_of_lines header hfirst hrest, lines_append_trailing hls, lines_of_not_mem hline,
      List.singleton_append]

theorem exists_block (header : Nat) (c : Cursor) :
    ∃ inside outside, c.rest = inside ++ outside ∧ IsBlock header inside outside ∧
      blockEnd header c = c.skip inside.length := by
  obtain ⟨below, hrest, hfirst, hbelow⟩ := exists_eq_append_trailing c.rest
  have hend := blockEnd_eq header hrest hfirst hbelow
  generalize firstLine c.rest = first at hrest hfirst hend
  cases hblank : isBlankText first with
  | false =>
    obtain ⟨blanks, hline, -⟩ := exists_trimEnd_append first
    rw [hblank, if_neg Bool.false_ne_true] at hend
    refine ⟨trimEnd first, blanks ++ trailing below, ?_, isBlock_of_code hfirst hblank hline, hend⟩
    rw [← List.append_assoc, ← hline]
    exact hrest
  | true =>
    rw [hblank, if_pos rfl] at hend
    obtain ⟨body, rest, rfl, hbelongs, hshallow, hends⟩ :=
      blockStop_spec header none (first.length + 1) first.length below
    obtain ⟨hbody, hrestFeed⟩ := List.forall_mem_append.mp hbelow
    rcases hends with ⟨rfl, hstop⟩ | ⟨init, last, rfl, hcode, hstop⟩
    · refine ⟨first, trailing rest, hrest, isBlock_of_blank hfirst hblank hrestFeed hshallow, ?_⟩
      rw [hend, hstop]
    · obtain ⟨hinit, hlast⟩ := List.forall_mem_append.mp hbody
      obtain ⟨blanks, hline, -⟩ := exists_trimEnd_append last
      refine ⟨first ++ trailing (init ++ [trimEnd last]), blanks ++ trailing rest, ?_,
        isBlock_of_lines hfirst hblank hinit (hlast last (by simp)) hrestFeed hcode hline hbelongs
          hshallow, ?_⟩
      · rw [hrest]
        conv => lhs; rw [hline]
        simp [trailing]
      · rw [hend, hstop, List.length_append, length_trailing, linesLength_append, linesLength,
          linesLength]
        congr 1
        omega

/-! ### Spans of indented callables -/

variable {source : Text} {s : Span}

theorem bounds?_stands {f : Found} {start : Nat} {stop : Cursor} (hf : f.stop.Stands source)
    (h : indentation.bounds? f = some (start, stop)) : stop.Stands source := by
  simp only [bounds?, bind, Option.bind_eq_some_iff, Option.some.injEq, Prod.mk.injEq] at h
  obtain ⟨closed, hclosed, colon, hcolon, -, -, -, rfl⟩ := h
  obtain ⟨n, -, rfl⟩ := Option.map_eq_some_iff.mp hclosed
  obtain ⟨inside, -, -, -, hend⟩ := exists_block (indentWidth (f.stop.capturedText .indent)) colon
  rw [hend]
  exact (fitAt?_stands hcolon (hf.skip _)).skip _

theorem exists_block_of_mem (h : s ∈ indentation.spans source) :
    ∃ (g : Heading) (inside outside : Text), g.IsOf source ∧ g.behind = inside ++ outside ∧
      IsBlock (indentWidth g.indent) inside outside ∧ s.start = g.start ∧
      s.stop = (g.colon + 1 + inside.length : Nat) := by
  obtain ⟨f, start, stop, hoccurs, hstands, rfl⟩ := exists_occurs_along (P := (·.Stands source))
    (fun hc hf => search?_stands hf hc) bounds?_stands (IsIn.start source) (Stands.start source) h
  obtain ⟨g, colon, hg, rfl, hrest, hoffset, rfl⟩ := exists_heading hstands hoccurs
  obtain ⟨inside, outside, hsplit, hblock, hend⟩ := exists_block (indentWidth g.indent) colon
  have hstop : (blockEnd (indentWidth g.indent) colon).offset = g.colon + 1 + inside.length := by
    rw [hend, (Passes.skip hsplit).offset_eq, hoffset]
  have hbehind : g.behind = inside ++ outside := hrest.symm.trans hsplit
  have hlength := congrArg List.length hg.source_eq
  simp only [List.length_append, hbehind] at hlength
  have hheader := g.header_length
  have hstart : g.start = g.above.length + g.indent.length := rfl
  refine ⟨g, inside, outside, hg, hbehind, hblock, rfl, ?_⟩
  rw [Span.cut_stop, hstop]
  · omega
  · omega

theorem slice_behind_colon {front inside outside : Text}
    (h : source = front ++ ':' :: (inside ++ outside)) :
    slice source (front.length + 1) (front.length + 1 + inside.length) = inside ∧
      source.drop (front.length + 1) = inside ++ outside ∧
      source.drop (front.length + 1 + inside.length) = outside := by
  have hsplit : source = (front ++ [':']) ++ (inside ++ outside) := by simp [h]
  have hlength : front.length + 1 = (front ++ [':']).length := by simp
  rw [hsplit, hlength]
  refine ⟨slice_append_append .., List.drop_left, ?_⟩
  rw [List.drop_length_add_append, List.drop_left]

theorem lineEnd_colon {front inside outside : Text} (h : source = front ++ ':' :: (inside ++ outside))
    (hinside : '\n' ∉ inside) (houtside : outside.head?.all (· == '\n') = true) :
    lineEnd source front.length = front.length + 1 + inside.length := by
  have hline : (':' :: (inside ++ outside)).takeWhile (· ≠ '\n') = ':' :: inside := by
    have hfeed : '\n' ∉ ':' :: inside := by simp [hinside]
    cases outside with
    | nil => simpa using (takeWhile_line hfeed []).1
    | cons c below =>
      obtain rfl : c = '\n' := by simpa using houtside
      exact (takeWhile_line hfeed below).2
  rw [h, lineEnd_append, hline, List.length_cons]
  omega

/-- The lines of a block are indented deeper than the header or begin inside a literal, and the block
ends right behind a character that is not blank, or with the line of the colon. -/
theorem spans_belong (h : s ∈ indentation.spans source) :
    ∃ colon inside, headerColon? source s.start.toNat = some colon ∧ s.start ≤ colon ∧
      colon < s.stop ∧ inside = slice source (colon + 1) s.stop.toNat ∧
      (∀ i line, (lines inside).tail[i]? = some line → isBlankText line = false →
        indentWidth (lineAt source s.start.toNat) < indentWidth line ∨
          ((lines inside).tail.take i).foldl openLiteralAfter none ≠ none) ∧
      (isBlankText inside = false → ∃ c ∈ inside.getLast?, isBlank c = false) ∧
      (isBlankText inside = true → s.stop = lineEnd source colon) := by
  obtain ⟨g, inside, outside, hg, hbehind, hblock, hstart, hstop⟩ := exists_block_of_mem h
  obtain ⟨front, hsource, hfront⟩ := hg.exists_front
  rw [hbehind] at hsource
  have hle := g.start_le_colon
  have hstartNat : s.start.toNat = g.start := by omega
  have hstopNat : s.stop.toNat = g.colon + 1 + inside.length := by omega
  rw [hstartNat, hstopNat, hg.indentWidth_lineAt]
  refine ⟨g.colon, inside, hg.headerColon?, by omega, by omega, ?_, belongs_iff.mp hblock.belongs,
    hblock.ends, fun hblank => ?_⟩
  · rw [← hfront]
    exact (slice_behind_colon hsource).1.symm
  · obtain ⟨hinside, houtside⟩ := hblock.stays hblank
    rw [hstop, ← hfront, lineEnd_colon hsource hinside houtside]

/-- A docstring at column zero does not end its block, and the line behind it that is not indented
does. -/
theorem spans_belong_of_docstring :
    let source : Text := "def f():\n  \"\"\"one\ntwo\n\"\"\"\n  g()\n\ng()\n"
    let s : Span := ⟨"f", "def f():\n  \"\"\"one\ntwo\n\"\"\"\n  g()", 0⟩
    s ∈ indentation.spans source ∧
      ∃ colon inside, headerColon? source s.start.toNat = some colon ∧
        inside = slice source (colon + 1) s.stop.toNat ∧
        (∀ i line, (lines inside).tail[i]? = some line → isBlankText line = false →
          indentWidth (lineAt source s.start.toNat) < indentWidth line ∨
            ((lines inside).tail.take i).foldl openLiteralAfter none ≠ none) := by
  intro source s
  have hmem : s ∈ indentation.spans source := by decide +kernel
  obtain ⟨colon, inside, hcolon, -, -, hinside, hbelong, -⟩ := spans_belong hmem
  exact ⟨hmem, colon, inside, hcolon, hinside, hbelong⟩

/-- The code below a span is not indented deeper than the line of its header exactly if the block is
not on the line of the colon, or no code below that line is indented deeper. Code behind the colon is
the whole block, and a comment counts as code. -/
theorem spans_shallowBelow_iff (h : s ∈ indentation.spans source) :
    ∃ colon rest, headerColon? source s.start.toNat = some colon ∧
      rest = firstLine (source.drop (colon + 1)) ∧
      (ShallowBelow source s.stop.toNat (indentWidth (lineAt source s.start.toNat)) ↔
        isBlankText rest = true ∨
          ShallowBelow source (colon + 1) (indentWidth (lineAt source s.start.toNat))) ∧
      (isBlankText rest = false → s.stop = (colon + 1 + (trimEnd rest).length : Nat)) := by
  obtain ⟨g, inside, outside, hg, hbehind, hblock, hstart, hstop⟩ := exists_block_of_mem h
  obtain ⟨front, hsource, hfront⟩ := hg.exists_front
  rw [hbehind] at hsource
  obtain ⟨-, hdrop, hdropStop⟩ := slice_behind_colon hsource
  rw [hfront] at hdrop hdropStop
  have hstartNat : s.start.toNat = g.start := by omega
  have hstopNat : s.stop.toNat = g.colon + 1 + inside.length := by omega
  rw [hstartNat, hstopNat, hg.indentWidth_lineAt]
  refine ⟨g.colon, _, hg.headerColon?, rfl, ?_, ?_⟩
  · rw [hdrop, ShallowBelow, ShallowBelow, codeBelow?, codeBelow?, hdropStop, hdrop]
    cases hblank : isBlankText (firstLine (inside ++ outside)) with
    | true => simpa using hblock.shallow hblank
    | false =>
      have hfeed : '\n' ∉ inside := by
        rw [hblock.one_line hblank]
        intro hmem
        obtain ⟨-, -, hfirst, -⟩ := exists_eq_append_trailing (inside ++ outside)
        exact hfirst ((trimEnd_isPrefix _).subset hmem)
      rw [tail_lines_append hfeed]
      simp
  · rw [hdrop]
    intro hcode
    rw [hstop, ← hblock.one_line hcode]

/-- A block on the line of the colon. The code below is not indented. -/
theorem spans_shallowBelow_iff_of_one_line :
    let source : Text := "def f(): return 1\n\ng()\n"
    let s : Span := ⟨"f", "def f(): return 1", 0⟩
    s ∈ indentation.spans source ∧
      ∃ colon rest, headerColon? source s.start.toNat = some colon ∧
        rest = firstLine (source.drop (colon + 1)) ∧
        (ShallowBelow source s.stop.toNat (indentWidth (lineAt source s.start.toNat)) ↔
          isBlankText rest = true ∨
            ShallowBelow source (colon + 1) (indentWidth (lineAt source s.start.toNat))) := by
  intro source s
  have hmem : s ∈ indentation.spans source := by decide +kernel
  obtain ⟨colon, rest, hcolon, hrest, hiff, -⟩ := spans_shallowBelow_iff hmem
  exact ⟨hmem, colon, rest, hcolon, hrest, hiff⟩

/-- A comment behind the colon counts as the block, so the lines below are left out. -/
theorem not_spans_shallowBelow :
    ¬∀ (source : Text) (s : Span), s ∈ indentation.spans source →
      ShallowBelow source s.stop.toNat (indentWidth (lineAt source s.start.toNat)) := by
  intro hall
  have hmem : (⟨"f", "def f(): # one", 0⟩ : Span) ∈
      indentation.spans "def f(): # one\n    return 1\n" := by decide +kernel
  exact absurd (hall _ _ hmem) (by decide +kernel)

end Shape

end CodeGraft
