import CodeGraft.Proofs.FenceRuns

/-!
# Texts in longer fences

A text is quoted between two fences that are longer than all of its own. None of its fences can then
close the region around it, but a region that it opens and leaves open takes the last fence for
itself. So the text is read back as it is exactly if all regions that it opens are closed within it;
if one is left open, nothing is read.
-/

namespace CodeGraft

open Text

namespace Fence

variable {lineStart lineEnd : Nat} {left : Text} {runs : List Text} {f : Fence}

/-- A fence whose line is moved back in the text. -/
def shifted (k : Nat) (f : Fence) : Fence :=
  { f with start := f.start + k, lineStart := f.lineStart + k, lineEnd := f.lineEnd + k }

theorem ofRuns_shifted (k : Nat) :
    ofRuns (lineStart + k) (lineEnd + k) left runs =
      (ofRuns lineStart lineEnd left runs).map (shifted k) := by
  induction runs generalizing left with
  | nil => rfl
  | cons run runs ih =>
    simp only [ofRuns, ih]
    split
    · rfl
    · simp [shifted, Nat.add_right_comm]

theorem ofLines_shifted (k : Nat) (ls : List Text) :
    ofLines (lineStart + k) ls = (ofLines lineStart ls).map (shifted k) := by
  induction ls generalizing lineStart with
  | nil => rfl
  | cons line ls ih =>
    have hline : ofLine (lineStart + k) line = (ofLine lineStart line).map (shifted k) := by
      rw [ofLine, ofLine, Nat.add_right_comm, ofRuns_shifted]
    have hnext : lineStart + k + line.length + 1 = lineStart + line.length + 1 + k := by omega
    rw [ofLines, ofLines, List.map_append, hline, hnext, ih]

theorem length_lt_of_mem_all {text : Text} {n : Nat}
    (h : ∀ c, isFenceChar c = true → ¬ List.replicate n c <:+: text) (hf : f ∈ all text) :
    f.length < n := by
  have hrun := (isFenceOf_of_mem_all hf).run
  by_contra hle
  have hpart : List.replicate n f.char <:+: List.replicate f.length f.char := by
    rw [List.infix_replicate_iff]
    exact ⟨by simpa using Nat.le_of_not_lt hle, by simp⟩
  have hwhole : List.replicate f.length f.char <:+: text := by
    rw [← hrun.run_eq]
    exact (List.drop_suffix ..).isInfix.trans (List.take_prefix ..).isInfix
  exact h f.char hrun.fenceChar (hpart.trans hwhole)

end Fence

namespace Region

/-- The open regions behind a fence, the innermost first, by those in front of it. A fence may open
a nested region, or close the innermost one that is open. -/
def openBehind (stack : List (Char × Nat)) (f : Fence) : List (Char × Nat) :=
  if f.opensNested then (f.char, f.length) :: stack
  else match stack with
    | inner :: outer => if f.closes inner then outer else inner :: outer
    | [] => []

def leftOpen (fences : List Fence) : List (Char × Nat) := fences.foldl openBehind []

theorem leftOpen_map_shifted (k : Nat) (fences : List Fence) :
    leftOpen (fences.map (Fence.shifted k)) = leftOpen fences := by
  rw [leftOpen, List.foldl_map]
  rfl

/-- The search for the fence that closes the outermost region of a stack. -/
def closerOf? : List (Char × Nat) → List Fence → Option (Fence × List Fence)
  | [], _ => none
  | inner :: outer, fences => closer? inner outer fences

variable {base : Char × Nat} {f : Fence} {fences : List Fence}

theorem closerOf?_cons_of_shorter (hshort : f.length < base.2) (stack : List (Char × Nat)) :
    closerOf? (stack ++ [base]) (f :: fences) =
      closerOf? (openBehind stack f ++ [base]) fences := by
  have hopen : f.closes base = false := by simp [Fence.closes, hshort]
  cases stack with
  | nil =>
    simp only [openBehind, List.nil_append, closerOf?, closer?, hopen]
    split <;> rfl
  | cons inner outer =>
    simp only [openBehind, List.cons_append, closerOf?, closer?]
    split
    · rfl
    · split
      · cases outer <;> rfl
      · rfl

theorem closerOf?_append_of_shorter (hshort : ∀ f ∈ fences, f.length < base.2)
    (stack : List (Char × Nat)) (more : List Fence) :
    closerOf? (stack ++ [base]) (fences ++ more) =
      closerOf? (fences.foldl openBehind stack ++ [base]) more := by
  induction fences generalizing stack with
  | nil => rfl
  | cons f fences ih =>
    rw [List.cons_append, closerOf?_cons_of_shorter (hshort f (List.mem_cons_self ..)),
      ih fun g hg => hshort g (List.mem_cons_of_mem _ hg)]
    rfl

theorem closerOf?_last (hinfo : f.info = []) (hcloses : f.closes base = true)
    (stack : List (Char × Nat)) :
    closerOf? (stack ++ [base]) [f] = if stack = [] then some (f, []) else none := by
  have hopens : f.opensNested = false := by simp [Fence.opensNested, hinfo]
  cases stack with
  | nil => simp [closerOf?, closer?, hopens, hcloses]
  | cons inner outer =>
    -- whether or not the last fence closes the innermost region, one is left around it
    simp only [List.cons_append, closerOf?, closer?, hopens]
    cases outer <;> simp

theorem ofFences_cons_of_unclosed {text : Text} {floor : Nat} {opener : Fence}
    (hstart : opener.atLineStart = true) (hend : opener.lineEnd < text.length)
    (hcloser : closer? (opener.char, opener.length) [] fences = none) :
    ofFences text floor (opener :: fences) = [] := by
  rw [ofFences, if_neg (by simp [hstart]; omega)]
  split
  · rfl
  next closer rest heq => exact absurd (hcloser.symm.trans heq) (by simp)

theorem closer?_of_shorter (hshort : ∀ g ∈ fences, g.length < base.2) (hinfo : f.info = [])
    (hcloses : f.closes base = true) :
    closer? base [] (fences ++ [f]) = if leftOpen fences = [] then some (f, []) else none := by
  have hsearch := closerOf?_append_of_shorter hshort [] [f]
  rwa [closerOf?_last hinfo hcloses] at hsearch

end Region

/-! ### Reading back -/

/-- A text between two fences, behind some lines. -/
def quotedBelow (lead : Text) (c : Char) (n : Nat) (body : Text) : Text :=
  lead ++ (List.replicate n c ++ '\n' :: (body ++ '\n' :: List.replicate n c))

def Fence.alone (lineStart : Nat) (c : Char) (n : Nat) : Fence :=
  { start := lineStart, char := c, length := n, info := [], lineStart, lineEnd := lineStart + n,
    atLineStart := true }

section

variable {lead path body : Text} {c : Char} {n : Nat}

theorem Fence.ofLines_alone (hc : isFenceChar c = true) (hn : 3 ≤ n) (lineStart : Nat) :
    ofLines lineStart (lines (List.replicate n c)) = [alone lineStart c n] := by
  have hline : '\n' ∉ List.replicate n c := by
    intro hmem
    rw [← List.eq_of_mem_replicate hmem] at hc
    exact absurd hc (by decide)
  have hbare : List.replicate n c = [] ++ (List.replicate n c ++ []) := by simp
  rw [ofLines_lines_of_not_mem hline, hbare, ofLine_fence isBlankText_nil hc hn
    (fenceFree_of_blank isBlankText_nil) (by simp)]
  simp [alone, trim, trimStart, trimEnd]

theorem Fence.all_quotedBelow (hends : EndsLine lead) (hfree : FenceFree lead)
    (hc : isFenceChar c = true) (hn : 3 ≤ n) (body : Text) :
    all (quotedBelow lead c n body) =
      alone lead.length c n :: ((all body).map (shifted (lead.length + (n + 1))) ++
        [alone (lead.length + (n + 1) + (body.length + 1)) c n]) := by
  rw [all, quotedBelow, ofLines_lines_prose hends hfree, ofLines_lines_append,
    ofLines_lines_append, ofLines_alone hc hn, ofLines_alone hc hn, List.length_replicate,
    Nat.zero_add, List.singleton_append, all, ← ofLines_shifted, Nat.zero_add]

theorem Region.ofRegion_quotedBelow (hhint : pathHint? lead = some path)
    (hlooks : looksLikePath path = true) (hreturn : body.getLast? ≠ some '\r') :
    Block.ofRegion (between (quotedBelow lead c n body) 0 (.alone lead.length c n)
      (.alone (lead.length + (n + 1) + (body.length + 1)) c n)) = .ok ⟨path, [], body⟩ := by
  obtain ⟨before, hbefore⟩ : ∃ t, t = lead ++ (List.replicate n c ++ ['\n']) := ⟨_, rfl⟩
  have htext : quotedBelow lead c n body =
      before ++ (body ++ '\n' :: List.replicate n c) := by
    simp [hbefore, quotedBelow]
  have hstart : before.length = lead.length + n + 1 := by simp [hbefore, Nat.add_assoc]
  have hstop : codeStop (before ++ (body ++ '\n' :: List.replicate n c)) before.length
      (.alone (lead.length + (n + 1) + (body.length + 1)) c n) = before.length + body.length := by
    refine codeStop_of_line (by simp [hbefore]) hreturn rfl ?_
    simp only [Fence.alone, hstart]
    omega
  have hpreamble : slice (quotedBelow lead c n body) 0 lead.length = lead := by
    simp [slice, quotedBelow]
  rw [htext] at hpreamble
  have hlanguage : languageOf [] = [] := rfl
  simp only [between, Fence.alone, htext, hpreamble, ← hstart] at hstop ⊢
  rw [hstop, slice_append_append]
  simp only [Block.ofRegion, hhint, hlooks, if_true, hlanguage]

/-- A text between two longer fences is read back where all regions that it opens are closed in it,
and else nothing is read. -/
theorem readRegions_quotedBelow (hends : EndsLine lead) (hfree : FenceFree lead)
    (hhint : pathHint? lead = some path) (hlooks : looksLikePath path = true)
    (hc : isFenceChar c = true) (hn : 3 ≤ n) (hreturn : body.getLast? ≠ some '\r')
    (hlonger : ∀ f ∈ Fence.all body, f.length < n) :
    readRegions (quotedBelow lead c n body) =
      if Region.leftOpen (Fence.all body) = [] then [.ok ⟨path, [], body⟩] else [] := by
  have hshort : ∀ f ∈ (Fence.all body).map (Fence.shifted (lead.length + (n + 1))),
      f.length < n := by
    intro f hf
    obtain ⟨g, hg, rfl⟩ := List.mem_map.mp hf
    exact hlonger g hg
  have hcloses : (Fence.alone (lead.length + (n + 1) + (body.length + 1)) c n).closes (c, n) =
      true := by simp [Fence.closes, Fence.alone]
  have hcloser := Region.closer?_of_shorter hshort rfl hcloses
  rw [Region.leftOpen_map_shifted] at hcloser
  have hline : (Fence.alone lead.length c n).lineEnd < (quotedBelow lead c n body).length := by
    simp [Fence.alone, quotedBelow]
  rw [readRegions, Region.all, Fence.all_quotedBelow hends hfree hc hn]
  split
  next hclosed =>
    rw [if_pos hclosed] at hcloser
    rw [Region.ofFences_cons rfl hline hcloser, Region.ofFences, List.map_singleton,
      Region.ofRegion_quotedBelow hhint hlooks hreturn]
  next hopen =>
    rw [if_neg hopen] at hcloser
    rw [Region.ofFences_cons_of_unclosed rfl hline hcloser, List.map_nil]

end

/-- A text that does not end in a carriage return, quoted below the line of a path between two
fences that are longer than all runs of fence characters in it, is read as one block with just this
text if every region that it opens is closed in it. If it leaves a region open, nothing is read. -/
theorem blocks_of_longer_fence {body : Text} {n : Nat} (hreturn : body.getLast? ≠ some '\r')
    (hn : 3 ≤ n) (hlonger : ∀ c, isFenceChar c = true → ¬ List.replicate n c <:+: body) :
    blocks ("a.md\n" ++ (List.replicate n '`' ++ '\n' :: (body ++ '\n' :: List.replicate n '`'))) =
      if Region.leftOpen (Fence.all body) = [] then [⟨"a.md", [], body⟩] else [] := by
  have hhint : pathHint? "a.md\n" = some "a.md".toList := by decide +kernel
  have hregions := readRegions_quotedBelow (by decide) (by decide) hhint (by decide)
    (by decide : isFenceChar '`' = true) hn hreturn
    fun f hf => Fence.length_lt_of_mem_all hlonger hf
  rw [quotedBelow] at hregions
  rw [blocks, hregions]
  split <;> rfl

/-- A listing that is closed, and a run of tildes within a line. -/
theorem blocks_of_quoted_listing :
    let body : Text := "Example:\n```python\nprint(1)\n```\ndone ~~~"
    body.getLast? ≠ some '\r' ∧ Region.leftOpen (Fence.all body) = [] ∧
      blocks ("a.md\n" ++ (List.replicate 4 '`' ++ '\n' :: (body ++ '\n' ::
        List.replicate 4 '`'))) = [⟨"a.md", [], body⟩] := by
  intro body
  have hreturn : body.getLast? ≠ some '\r' := by decide +kernel
  have hlonger : ∀ c, isFenceChar c = true → ¬ List.replicate 4 c <:+: body := by
    intro c hc
    obtain rfl | rfl : c = '`' ∨ c = '~' := by simpa [isFenceChar] using hc
    · decide +kernel
    · decide +kernel
  have hclosed : Region.leftOpen (Fence.all body) = [] := by decide +kernel
  have hblocks := blocks_of_longer_fence hreturn (by decide) hlonger
  rw [if_pos hclosed] at hblocks
  exact ⟨hreturn, hclosed, hblocks⟩

/-- A fence that opens a region and is never closed takes the last fence away from the region around
it, however long this fence is. -/
theorem not_blocks_of_longer_fence :
    ¬ ∀ (body : Text) (n : Nat), body.getLast? ≠ some '\r' → 3 ≤ n →
      (∀ c, isFenceChar c = true → ¬ List.replicate n c <:+: body) →
      blocks ("a.md\n" ++ (List.replicate n '`' ++ '\n' :: (body ++ '\n' ::
        List.replicate n '`'))) = [⟨"a.md", [], body⟩] := by
  intro h
  have hblocks := h "```js" 4 (by decide) (by decide) (by
    intro c hc
    obtain rfl | rfl : c = '`' ∨ c = '~' := by simpa [isFenceChar] using hc
    · decide +kernel
    · decide +kernel)
  exact absurd hblocks (by decide +kernel)

end CodeGraft
