import CodeGraft.Fence.Block
import CodeGraft.Proofs.FenceLines

/-!
# Documents of code blocks

Code blocks that are written one after another, each as the line of its path and a fenced region, are
read back as they were: the search for regions stops at the fence that was written behind each code,
and the line above each opening fence is the path.
-/

namespace CodeGraft

open Text

/-- A code block with what a document puts around it. -/
structure Piece where
  /-- What stands before the line of the path. -/
  prose : Text
  fenceChar : Char
  fenceLength : Nat
  block : Block

def EndsLine (text : Text) : Prop := text = [] ∨ text.getLast? = some '\n'

instance (text : Text) : Decidable (EndsLine text) := inferInstanceAs (Decidable (_ ∨ _))

namespace Piece

def fence (p : Piece) : Text := List.replicate p.fenceLength p.fenceChar

/-- The lines above the opening fence. -/
def lead (p : Piece) : Text := p.prose ++ (p.block.path ++ ['\n'])

def opening (p : Piece) : Text := p.fence ++ p.block.language

def text (p : Piece) : Text :=
  p.lead ++ (p.opening ++ '\n' :: (p.block.code ++ '\n' :: p.fence))

/-- The blocks that can be written so that they are read back. -/
structure Writable (p : Piece) : Prop where
  prose_ends : EndsLine p.prose
  prose_free : FenceFree p.prose
  path_trimmed : trim p.block.path = p.block.path
  path_line : bareLines p.block.path = [p.block.path]
  path_looks : looksLikePath p.block.path = true
  path_free : FenceFree p.block.path
  fence_char : isFenceChar p.fenceChar = true
  fence_length : 3 ≤ p.fenceLength
  language_token : ∀ c ∈ p.block.language, isBlank c = false ∧ c ≠ '=' ∧ isFenceChar c = false
  language_lower : lower p.block.language = p.block.language
  code_return : p.block.code.getLast? ≠ some '\r'
  code_nested : Nested (lines p.block.code)

end Piece

/-- The pieces with an empty line between neighbours. -/
def document (pieces : List Piece) : Text := joinWith "\n\n" (pieces.map Piece.text)

namespace Fence

variable {lineStart : Nat} {front : Text}

theorem ofLines_lines_of_free (h : FenceFree front) (rest : Text) :
    ofLines lineStart (lines (front ++ '\n' :: rest)) =
      ofLines (lineStart + (front.length + 1)) (lines rest) := by
  rw [ofLines_lines_append, ofLines_of_fenceFree, List.nil_append]
  exact fun line hline => h.of_infix (isInfix_of_mem_lines hline)

theorem ofLines_lines_prose (hends : EndsLine front) (h : FenceFree front) (rest : Text) :
    ofLines lineStart (lines (front ++ rest)) =
      ofLines (lineStart + front.length) (lines rest) := by
  rcases hends with rfl | hlast
  · rfl
  · obtain ⟨front, rfl⟩ := List.getLast?_eq_some_iff.mp hlast
    rw [List.append_assoc, List.singleton_append,
      ofLines_lines_of_free (h.of_infix (List.prefix_append _ _).isInfix)]
    simp

end Fence

theorem EndsLine.append {a b : Text} (ha : EndsLine a) (hb : EndsLine b) : EndsLine (a ++ b) := by
  rcases hb with rfl | hb
  · rwa [List.append_nil]
  · right
    rw [List.getLast?_append, hb]
    rfl

theorem EndsLine.bareLines_append {front : Text} (h : EndsLine front) (text : Text) :
    bareLines (front ++ text) = bareLines front ++ bareLines text := by
  rcases h with rfl | h
  · rfl
  · obtain ⟨front, rfl⟩ := List.getLast?_eq_some_iff.mp h
    rw [List.append_assoc, List.singleton_append, bareLines, brokenLines, brokenLinesFrom_append,
      List.map_append]
    rfl

theorem bareLines_line {line : Text} (h : ∀ c ∈ line, isLineBreak c = false) :
    bareLines (line ++ ['\n']) = [line] := by
  have hreturn : line.getLast? ≠ some '\r' := fun hlast =>
    absurd (h _ (List.mem_of_getLast? hlast)) (by decide)
  have hlines : brokenLines (line ++ ['\n']) = [line ++ ['\n']] := by
    rw [brokenLines, brokenLinesFrom_of_unbroken h]
    simp [brokenLinesFrom, isLineBreak]
  rw [bareLines, hlines, List.map_singleton, withoutBreak_append line rfl fun _ => hreturn]

theorem not_isBlankText_of_looksLikePath {path : Text} (h : looksLikePath path = true) :
    isBlankText path = false := by
  have hmark : ∃ c ∈ path, isBlank c = false := by
    simp only [looksLikePath, Bool.or_eq_true, List.contains_iff_mem] at h
    rcases h with h | h <;> exact ⟨_, h, by decide⟩
  obtain ⟨c, hc, hblank⟩ := hmark
  exact List.all_eq_false.mpr ⟨c, hc, by simp [hblank]⟩

namespace Piece

variable {p : Piece}

theorem Writable.pathHint?_lead (hp : p.Writable) {gap : Text} (hgap : EndsLine gap) :
    pathHint? (gap ++ p.lead) = some p.block.path := by
  have hline := bareLines_line (not_isLineBreak_of_bareLines hp.path_line)
  have hnonblank := not_isBlankText_of_looksLikePath hp.path_looks
  rw [pathHint?, lead, ← List.append_assoc, (hgap.append hp.prose_ends).bareLines_append, hline]
  simp [hnonblank, hp.path_trimmed]

theorem Writable.trim_language (hp : p.Writable) : trim p.block.language = p.block.language :=
  trim_of_not_blank fun c hc => (hp.language_token c hc).1

theorem Writable.languageOf_language (hp : p.Writable) :
    languageOf p.block.language = p.block.language := by
  by_cases hempty : p.block.language = []
  · rw [hempty]
    rfl
  · have hassign : '=' ∉ p.block.language := fun h => (hp.language_token _ h).2.1 rfl
    rw [languageOf, words,
      wordsFrom_of_not_blank (fun c hc => (hp.language_token c hc).1) [] (Or.inr hempty)]
    simp [hassign, hp.language_lower]

def opener (p : Piece) (offset : Nat) : Fence :=
  { start := offset + p.lead.length, char := p.fenceChar, length := p.fenceLength,
    info := p.block.language, lineStart := offset + p.lead.length,
    lineEnd := offset + (p.lead.length + p.opening.length), atLineStart := true }

def codeStart (p : Piece) : Nat := p.lead.length + p.opening.length + 1

def closer (p : Piece) (offset : Nat) : Fence :=
  { start := offset + (p.codeStart + p.block.code.length + 1), char := p.fenceChar,
    length := p.fenceLength, info := [],
    lineStart := offset + (p.codeStart + p.block.code.length + 1),
    lineEnd := offset + p.text.length, atLineStart := true }

theorem not_mem_fence (hc : isFenceChar p.fenceChar = true) : '\n' ∉ p.fence := by
  intro hmem
  rw [← List.eq_of_mem_replicate hmem] at hc
  exact absurd hc (by decide)

theorem Writable.ofLines_text (hp : p.Writable) (offset : Nat) :
    Fence.ofLines offset (lines p.text) =
      p.opener offset ::
        (Fence.ofLines (offset + p.codeStart) (lines p.block.code) ++ [p.closer offset]) := by
  have hfree : FenceFree p.block.language :=
    fenceFree_of_not_isFenceChar fun c hc => (hp.language_token c hc).2.2
  have hhead : p.block.language.head? ≠ some p.fenceChar := by
    intro hhead
    have hc := (hp.language_token _ (List.mem_of_head? hhead)).2.2
    rw [hp.fence_char] at hc
    cases hc
  have hopening : '\n' ∉ p.opening := by
    rw [opening, List.mem_append, not_or]
    refine ⟨not_mem_fence hp.fence_char, fun hmem => ?_⟩
    exact absurd (hp.language_token _ hmem).1 (by decide)
  have hopener : Fence.ofLine (offset + p.lead.length) p.opening = [p.opener offset] := by
    refine (Fence.ofLine_fence isBlankText_nil hp.fence_char hp.fence_length hfree hhead).trans ?_
    simp [opener, opening, fence, hp.trim_language, Nat.add_assoc]
  have hcloser : Fence.ofLine (offset + (p.codeStart + p.block.code.length + 1)) p.fence =
      [p.closer offset] := by
    have hbare : p.fence = [] ++ (List.replicate p.fenceLength p.fenceChar ++ []) := by simp [fence]
    rw [hbare, Fence.ofLine_fence isBlankText_nil hp.fence_char hp.fence_length
      (fenceFree_of_blank isBlankText_nil) (by simp)]
    simp [closer, text, codeStart, fence, trim, trimStart, trimEnd]
    omega
  rw [text, lead, List.append_assoc, List.append_assoc, List.singleton_append,
    Fence.ofLines_lines_prose hp.prose_ends hp.prose_free,
    Fence.ofLines_lines_of_free hp.path_free, Fence.ofLines_lines_append,
    Fence.ofLines_lines_of_not_mem hopening, Fence.ofLines_lines_append,
    Fence.ofLines_lines_of_not_mem (not_mem_fence hp.fence_char)]
  have hlead : offset + p.prose.length + (p.block.path.length + 1) = offset + p.lead.length := by
    simp [lead, Nat.add_assoc]
  have hcode : offset + p.lead.length + (p.opening.length + 1) = offset + p.codeStart := by
    simp [codeStart, Nat.add_assoc]
  have hfence : offset + p.codeStart + (p.block.code.length + 1) =
      offset + (p.codeStart + p.block.code.length + 1) := by
    simp [Nat.add_assoc]
  rw [hlead, hopener, hcode, hfence, hcloser]
  rfl

end Piece

/-! ### The regions of a document -/

namespace Region

theorem ofFences_cons {text : Text} {floor : Nat} {opener closer : Fence}
    {fences rest : List Fence} (hstart : opener.atLineStart = true)
    (hend : opener.lineEnd < text.length)
    (h : closer? (opener.char, opener.length) [] fences = some (closer, rest)) :
    ofFences text floor (opener :: fences) =
      between text floor opener closer :: ofFences text closer.lineEnd rest := by
  rw [ofFences, if_neg (by simp [hstart]; omega)]
  split
  next hnone =>
    rw [h] at hnone
    cases hnone
  next closer' rest' hsome =>
    rw [h] at hsome
    cases hsome
    rfl

/-- The code of a region ends before the line feed above its closing fence. -/
theorem codeStop_of_line {before code behind : Text} {closer : Fence}
    (hbefore : before.getLast? = some '\n') (hcode : code.getLast? ≠ some '\r')
    (hstart : closer.atLineStart = true)
    (hline : closer.lineStart = before.length + code.length + 1) :
    codeStop (before ++ (code ++ '\n' :: behind)) before.length closer =
      before.length + code.length := by
  have hfeed : (before ++ (code ++ '\n' :: behind))[before.length + code.length]? = some '\n' := by
    simp
  have hprev : (before ++ (code ++ '\n' :: behind))[before.length + code.length - 1]? ≠
      some '\r' := by
    have hpos : 0 < before.length := by
      rw [List.length_pos_iff]
      rintro rfl
      cases hbefore
    have hlast : (before ++ (code ++ '\n' :: behind))[before.length + code.length - 1]? =
        (before ++ code).getLast? := by
      rw [List.getLast?_eq_getElem?, ← List.append_assoc, List.getElem?_append_left]
      · simp
      · simp
        omega
    rw [hlast, List.getLast?_append, hbefore]
    cases hc : code.getLast? with
    | none => simp
    | some c => simpa [hc] using hcode
  simp only [codeStop, hstart, hline, Nat.add_sub_cancel, hfeed]
  rw [if_neg (by simp), if_pos ⟨by omega, trivial⟩, if_neg]
  · omega
  · exact fun h => hprev h.2

end Region

namespace Piece

variable {p : Piece}

/-- The region of a piece is read as its block, whatever stands around the piece. -/
theorem Writable.ofRegion_between (hp : p.Writable) (done back : Text) {gap : Text}
    (hgap : EndsLine gap) :
    Block.ofRegion (Region.between (done ++ (gap ++ (p.text ++ back))) done.length
      (p.opener (done.length + gap.length)) (p.closer (done.length + gap.length))) =
        .ok p.block := by
  obtain ⟨before, hbefore⟩ : ∃ t, t = done ++ (gap ++ (p.lead ++ (p.opening ++ ['\n']))) := ⟨_, rfl⟩
  have hfront : done ++ (gap ++ (p.text ++ back)) =
      done ++ ((gap ++ p.lead) ++ (p.opening ++ '\n' :: (p.block.code ++ '\n' :: (p.fence ++ back)))) := by
    simp [text]
  have hcode : done ++ (gap ++ (p.text ++ back)) =
      before ++ (p.block.code ++ '\n' :: (p.fence ++ back)) := by
    simp [hbefore, text]
  have hstart : (p.opener (done.length + gap.length)).lineEnd + 1 = before.length := by
    simp [hbefore, opener]
    omega
  have hline : (p.closer (done.length + gap.length)).lineStart =
      before.length + p.block.code.length + 1 := by
    simp [hbefore, closer, codeStart]
    omega
  have hstop : Region.codeStop (before ++ (p.block.code ++ '\n' :: (p.fence ++ back))) before.length
      (p.closer (done.length + gap.length)) = before.length + p.block.code.length :=
    Region.codeStop_of_line (by simp [hbefore]) hp.code_return rfl hline
  have hpreamble : slice (done ++ (gap ++ (p.text ++ back))) done.length
      (p.opener (done.length + gap.length)).lineStart = gap ++ p.lead := by
    have hline : (p.opener (done.length + gap.length)).lineStart =
        done.length + (gap ++ p.lead).length := by
      simp [opener, Nat.add_assoc]
    rw [hfront, hline, slice_append_append]
  simp only [Region.between, hpreamble]
  rw [hstart, hcode, hstop, slice_append_append]
  simp only [Block.ofRegion, hp.pathHint?_lead hgap, hp.path_looks, if_true]
  rw [opener, hp.languageOf_language]

theorem Writable.closer?_code (hp : p.Writable) (offset lineStart : Nat) (fences : List Fence) :
    Region.closer? ((p.opener offset).char, (p.opener offset).length) []
      (Fence.ofLines lineStart (lines p.block.code) ++ p.closer offset :: fences) =
        some (p.closer offset, fences) := by
  rw [Region.closer?_nested hp.code_nested, Region.closer?,
    if_neg (by simp [Fence.opensNested, closer]),
    if_pos (by simp [Fence.closes, opener, closer])]

/-- The region of a piece comes first, then those of the fences behind the piece. -/
theorem Writable.ofFences_text (hp : p.Writable) (done back : Text) {gap : Text}
    (hgap : EndsLine gap) (fences : List Fence) :
    (Region.ofFences (done ++ (gap ++ (p.text ++ back))) done.length
      (Fence.ofLines (done.length + gap.length) (lines p.text) ++ fences)).map Block.ofRegion =
        .ok p.block :: (Region.ofFences (done ++ (gap ++ (p.text ++ back)))
          (done.length + gap.length + p.text.length) fences).map Block.ofRegion := by
  have hend : (p.opener (done.length + gap.length)).lineEnd <
      (done ++ (gap ++ (p.text ++ back))).length := by
    simp [opener, text]
    omega
  rw [hp.ofLines_text, List.cons_append, List.append_assoc, List.singleton_append,
    Region.ofFences_cons rfl hend (hp.closer?_code _ _ _), List.map_cons,
    hp.ofRegion_between done back hgap]
  rfl

end Piece

theorem document_cons (p : Piece) {pieces : List Piece} (h : pieces ≠ []) :
    document (p :: pieces) = p.text ++ '\n' :: '\n' :: document pieces := by
  rw [document, List.map_cons, joinWith_cons _ _ _ (by simpa using h)]
  simp [document]

theorem ofRegion_ofFences_document {pieces : List Piece} (h : ∀ p ∈ pieces, p.Writable)
    (done : Text) {gap : Text} (hgap : EndsLine gap) :
    (Region.ofFences (done ++ (gap ++ document pieces)) done.length
      (Fence.ofLines (done.length + gap.length) (lines (document pieces)))).map Block.ofRegion =
        pieces.map fun p => .ok p.block := by
  induction pieces generalizing done gap with
  | nil => simp [document, joinWith, lines, splitOn, Fence.ofLines, Fence.ofLine, Fence.ofRuns,
      Region.ofFences]
  | cons p pieces ih =>
    have hp := h p (by simp)
    cases pieces with
    | nil =>
      have hregion := hp.ofFences_text done [] hgap []
      simpa [document, joinWith, Region.ofFences] using hregion
    | cons q pieces =>
      have hempty : ∀ s, Fence.ofLines s (lines ('\n' :: document (q :: pieces))) =
          Fence.ofLines (s + 1) (lines (document (q :: pieces))) := fun s =>
        Fence.ofLines_lines_of_free (fenceFree_of_blank isBlankText_nil) _
      have hgap' : EndsLine ['\n', '\n'] := Or.inr rfl
      have hrest := ih (fun r hr => h r (by simp [hr])) (done ++ (gap ++ p.text)) hgap'
      rw [document_cons p (by simp), Fence.ofLines_lines_append, hp.ofFences_text done _ hgap, hempty,
        List.map_cons, ← hrest]
      simp [Nat.add_assoc]

/-- The blocks of a document are those that were written, in their order. -/
theorem blocks_document {pieces : List Piece} (h : ∀ p ∈ pieces, p.Writable) :
    blocks (document pieces) = pieces.map (·.block) := by
  have hregions : readRegions (document pieces) = pieces.map fun p => .ok p.block := by
    simpa [readRegions, Region.all, Fence.all] using
      ofRegion_ofFences_document h [] (Or.inl rfl : EndsLine [])
  rw [blocks, hregions, List.filterMap_map]
  simp [Function.comp_def, Except.toOption]

/-- A guide that shows a region in a region of its own, and an empty script behind it. -/
def guideAndScript : List Piece :=
  [{ prose := "First the guide:\n", fenceChar := '`', fenceLength := 3,
     block := ⟨"docs/guide.md", "markdown", "Run\n~~~sh\n```py\nx\n```\n~~~~\nor"⟩ },
   { prose := [], fenceChar := '~', fenceLength := 4, block := ⟨"src/a.py", [], []⟩ }]

theorem nested_guide : Nested (lines "Run\n~~~sh\n```py\nx\n```\n~~~~\nor") := by
  have hlines : lines "Run\n~~~sh\n```py\nx\n```\n~~~~\nor" =
      ["Run", "~~~sh", "```py", "x", "```", "~~~~", "or"] := by decide +kernel
  have hpy : Nested ["```py", "x", "```"] :=
    @Nested.region [] ['p', 'y'] [] [] '`' 3 3 ["x"] [] rfl (by decide) rfl (by decide +kernel)
      (by decide +kernel) (by decide) (.plain (by decide +kernel) .nil) (by decide) rfl rfl .nil
  rw [hlines]
  refine .plain (by decide +kernel) ?_
  exact @Nested.region [] ['s', 'h'] [] [] '~' 3 4 ["```py", "x", "```"] ["or"] rfl (by decide) rfl
    (by decide +kernel) (by decide +kernel) (by decide) hpy (by decide) rfl rfl
    (.plain (by decide +kernel) .nil)

theorem guideAndScript_writable : ∀ p ∈ guideAndScript, p.Writable := by
  intro p hp
  simp only [guideAndScript, List.mem_cons, List.not_mem_nil, or_false] at hp
  rcases hp with rfl | rfl
  · constructor
    case code_nested => exact nested_guide
    case language_token => simp [isBlank, isFenceChar]
    all_goals decide +kernel
  · constructor
    case code_nested => exact .plain (by decide +kernel) .nil
    case language_token => simp
    all_goals decide +kernel

theorem blocks_document_of_guideAndScript :
    (∀ p ∈ guideAndScript, p.Writable) ∧
      blocks (document guideAndScript) = guideAndScript.map (·.block) :=
  ⟨guideAndScript_writable, blocks_document guideAndScript_writable⟩

end CodeGraft
