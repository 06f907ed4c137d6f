import CodeGraft.Proofs.Continuations

/-!
# Runs that are fences

The fences of a text are those runs of a fence character that are three characters long or longer
and that the characters beside them do not make longer. Each run makes one fence, with its offsets and
those of its line, and the fences come in the order of their runs.
-/

namespace CodeGraft

open Text

theorem exists_firstLine (text : Text) : ∃ line behind, text = line ++ behind ∧ '\n' ∉ line ∧
    (behind = [] ∨ behind.head? = some '\n') := by
  induction text with
  | nil => exact ⟨[], [], rfl, by simp, .inl rfl⟩
  | cons c text ih =>
    by_cases hfeed : c = '\n'
    · exact ⟨[], c :: text, rfl, by simp, .inr (congrArg some hfeed)⟩
    · obtain ⟨line, behind, rfl, hline, hbehind⟩ := ih
      exact ⟨c :: line, behind, rfl, by simp [hline, Ne.symm hfeed], hbehind⟩

theorem exists_lastLine (text : Text) :
    ∃ before line, text = before ++ line ∧ EndsLine before ∧ '\n' ∉ line := by
  induction text using List.reverseRecOn with
  | nil => exact ⟨[], [], rfl, .inl rfl, by simp⟩
  | append_singleton text c ih =>
    by_cases hfeed : c = '\n'
    · exact ⟨text ++ [c], [], by simp, .inr (by simp [hfeed]), by simp⟩
    · obtain ⟨before, line, rfl, hends, hline⟩ := ih
      exact ⟨before, line ++ [c], by simp, hends, by simp [hline, Ne.symm hfeed]⟩

/-- A run of a fence character between two texts that make it no longer. -/
structure IsRunBetween (front behind : Text) (c : Char) (n : Nat) : Prop where
  fenceChar : isFenceChar c = true
  three_le : 3 ≤ n
  front_last : front.getLast? ≠ some c
  behind_head : behind.head? ≠ some c

/-- A run of a fence character that stands in a text at an offset, and is no part of a longer one. -/
structure IsFenceRun (text : Text) (start length : Nat) (c : Char) : Prop where
  fenceChar : isFenceChar c = true
  three_le : 3 ≤ length
  run_eq : slice text start (start + length) = List.replicate length c
  first : start = 0 ∨ text[start - 1]? ≠ some c
  last : text[start + length]? ≠ some c

section

variable {text front behind : Text} {c : Char} {n : Nat}

theorem IsRunBetween.isFenceRun (h : IsRunBetween front behind c n) :
    IsFenceRun (front ++ (List.replicate n c ++ behind)) front.length n c where
  fenceChar := h.fenceChar
  three_le := h.three_le
  run_eq := by
    have hslice := slice_append_append front (List.replicate n c) behind
    rwa [List.length_replicate] at hslice
  first := by
    by_cases hnone : front = []
    · exact .inl (by rw [hnone]; rfl)
    · have hpos := List.length_pos_iff.mpr hnone
      have hlast := h.front_last
      rw [List.getLast?_eq_getElem?] at hlast
      right
      rwa [List.getElem?_append_left (by omega)]
  last := by
    have hhead := h.behind_head
    rw [List.head?_eq_getElem?] at hhead
    rw [← List.append_assoc, List.getElem?_append_right (by simp)]
    simpa using hhead

theorem IsRunBetween.widen {before after : Text} (h : IsRunBetween front behind c n)
    (hends : EndsLine before) (hafter : after = [] ∨ after.head? = some '\n') :
    IsRunBetween (before ++ front) (behind ++ after) c n := by
  have hfeed : c ≠ '\n' := by
    rintro rfl
    exact absurd h.fenceChar (by decide)
  refine ⟨h.fenceChar, h.three_le, ?_, ?_⟩
  · rw [List.getLast?_append, ne_eq, Option.or_eq_some_iff, not_or]
    refine ⟨h.front_last, fun hlast => ?_⟩
    rcases hends with rfl | hends
    · cases hlast.2
    · exact hfeed (Option.some.inj (hlast.2.symm.trans hends))
  · rw [List.head?_append, ne_eq, Option.or_eq_some_iff, not_or]
    refine ⟨h.behind_head, fun hhead => ?_⟩
    rcases hafter with rfl | hafter
    · cases hhead.2
    · exact hfeed (Option.some.inj (hhead.2.symm.trans hafter))

theorem IsRunBetween.narrow {before after : Text}
    (h : IsRunBetween (before ++ front) (behind ++ after) c n) : IsRunBetween front behind c n := by
  refine ⟨h.fenceChar, h.three_le, fun hlast => h.front_last ?_, fun hhead => h.behind_head ?_⟩
  · rw [List.getLast?_append, hlast, Option.some_or]
  · rw [List.head?_append, hhead, Option.some_or]

theorem IsFenceRun.exists_between {start : Nat} (h : IsFenceRun text start n c) :
    ∃ front behind, text = front ++ (List.replicate n c ++ behind) ∧ front.length = start ∧
      IsRunBetween front behind c n := by
  have hlength := congrArg List.length h.run_eq
  rw [slice_length, List.length_replicate] at hlength
  have hthree := h.three_le
  have htext : text = text.take start ++ (List.replicate n c ++ text.drop (start + n)) := by
    rw [← h.run_eq, slice_append_drop _ (by omega), List.take_append_drop]
  have hfront : (text.take start).length = start := by
    rw [List.length_take]
    omega
  refine ⟨_, _, htext, hfront, h.fenceChar, hthree, ?_, ?_⟩
  · rw [List.getLast?_eq_getElem?, hfront]
    rcases h.first with hzero | hfirst
    · simp [hzero]
    · rw [List.getElem?_take]
      split
      · exact hfirst
      · simp
  · rw [List.head?_eq_getElem?, List.getElem?_drop, Nat.add_zero]
    exact h.last

end

namespace Fence

def ofRun (lineStart lineEnd : Nat) (front behind : Text) (c : Char) (n : Nat) : Fence :=
  { start := lineStart + front.length, char := c, length := n, info := trim behind, lineStart,
    lineEnd, atLineStart := isBlankText front }

/-! ### Fences of a line -/

variable {lineStart lineEnd : Nat} {left line : Text} {runs fronts behinds : List Text} {run : Text}
  {f : Fence} {c : Char} {n : Nat}

theorem ofRun_mem_ofRuns (h : charOf? run = some c) :
    ofRun lineStart lineEnd (left ++ fronts.flatten) behinds.flatten c run.length ∈
      ofRuns lineStart lineEnd left (fronts ++ run :: behinds) := by
  induction fronts generalizing left with
  | nil =>
    simp only [List.nil_append, List.flatten_nil, List.append_nil, ofRuns, h]
    exact List.mem_cons_self ..
  | cons front fronts ih =>
    have hmem := @ih (left ++ front)
    rw [List.append_assoc, ← List.flatten_cons] at hmem
    simp only [List.cons_append, ofRuns]
    split
    next => exact hmem
    next => exact List.mem_cons_of_mem _ hmem

theorem exists_run_of_mem_ofRuns (hf : f ∈ ofRuns lineStart lineEnd left runs) :
    ∃ fronts run behinds c, runs = fronts ++ run :: behinds ∧ charOf? run = some c ∧
      f = ofRun lineStart lineEnd (left ++ fronts.flatten) behinds.flatten c run.length := by
  induction runs generalizing left with
  | nil => cases hf
  | cons run runs ih =>
    have hrest : f ∈ ofRuns lineStart lineEnd (left ++ run) runs → ∃ fronts run' behinds c,
        run :: runs = fronts ++ run' :: behinds ∧ charOf? run' = some c ∧
          f = ofRun lineStart lineEnd (left ++ fronts.flatten) behinds.flatten c run'.length := by
      intro hf
      obtain ⟨fronts, run', behinds, c, rfl, hc, rfl⟩ := ih hf
      refine ⟨run :: fronts, run', behinds, c, rfl, hc, ?_⟩
      rw [List.append_assoc, List.flatten_cons]
    simp only [ofRuns] at hf
    split at hf
    next => exact hrest hf
    next c hc =>
      rcases List.mem_cons.mp hf with rfl | hf
      · refine ⟨[], run, runs, c, rfl, hc, ?_⟩
        rw [List.flatten_nil, List.append_nil]
        rfl
      · exact hrest hf

/-- What stands beside a run of equal characters does not make it longer. -/
theorem beside_of_splitBy_eq
    (h : line.splitBy (· == ·) = fronts ++ List.replicate n c :: behinds) :
    fronts.flatten.getLast? ≠ some c ∧ behinds.flatten.head? ≠ some c := by
  have hchain := List.isChain_getLast_head_splitBy (· == ·) line
  have hnil := List.nil_notMem_splitBy (· == ·) line
  rw [h] at hchain hnil
  have hn : n ≠ 0 := by
    rintro rfl
    exact hnil (by simp)
  obtain ⟨-, hbehind, hfront⟩ := List.isChain_append.mp hchain
  constructor
  · rcases List.eq_nil_or_concat fronts with rfl | ⟨more, front, rfl⟩
    · simp
    · obtain ⟨hne, hne', hbeside⟩ := hfront front (by simp) (List.replicate n c) (by simp)
      rw [List.head_replicate, beq_eq_false_iff_ne] at hbeside
      simpa [List.getLast?_append, List.getLast?_eq_some_getLast hne] using hbeside
  · cases behinds with
    | nil => simp
    | cons behind more =>
      obtain ⟨⟨hne, hne', hbeside⟩, -⟩ := List.isChain_cons_cons.mp hbehind
      rw [List.getLast_replicate, beq_eq_false_iff_ne] at hbeside
      simpa [List.head?_append, List.head?_eq_some_head hne'] using Ne.symm hbeside

theorem mem_ofLine_iff : f ∈ ofLine lineStart line ↔
    ∃ front behind c n, line = front ++ (List.replicate n c ++ behind) ∧
      IsRunBetween front behind c n ∧
      f = ofRun lineStart (lineStart + line.length) front behind c n := by
  constructor
  · intro hf
    obtain ⟨fronts, run, behinds, c, hruns, hc, rfl⟩ := exists_run_of_mem_ofRuns hf
    have hmem : run ∈ line.splitBy (· == ·) := by simp [hruns]
    obtain ⟨hchar, hthree, hrun⟩ := eq_replicate_of_charOf? hmem hc
    have hline := List.flatten_splitBy (· == ·) line
    rw [hruns, List.flatten_append, List.flatten_cons] at hline
    rw [hrun] at hruns
    obtain ⟨hfront, hbehind⟩ := beside_of_splitBy_eq hruns
    exact ⟨fronts.flatten, behinds.flatten, c, run.length, by rw [← hrun, hline],
      ⟨hchar, hthree, hfront, hbehind⟩, rfl⟩
  · intro h
    obtain ⟨front, behind, c, n, hline, hrun, rfl⟩ := h
    have hruns := splitBy_run (Nat.lt_of_lt_of_le (by decide) hrun.three_le) hrun.front_last
      hrun.behind_head
    have hmem := @ofRun_mem_ofRuns lineStart (lineStart + line.length) []
      (front.splitBy (· == ·)) (behind.splitBy (· == ·)) _ c
      (charOf?_replicate hrun.fenceChar hrun.three_le)
    rwa [← hruns, ← hline, List.flatten_splitBy, List.flatten_splitBy, List.length_replicate,
      List.nil_append] at hmem

theorem mem_all_of_line {before behind : Text} (hends : EndsLine before) (hline : '\n' ∉ line)
    (hbehind : behind = [] ∨ behind.head? = some '\n') (hf : f ∈ ofLine before.length line) :
    f ∈ all (before ++ (line ++ behind)) := by
  rw [all_append hends]
  refine List.mem_append_right _ ?_
  rcases hbehind with rfl | hhead
  · rwa [List.append_nil, ofLines_lines_of_not_mem hline]
  · obtain ⟨more, rfl⟩ := List.head?_eq_some_iff.mp hhead
    rw [ofLines_lines_append, ofLines_lines_of_not_mem hline]
    exact List.mem_append_left _ hf

/-- What is told of a fence is true of a text: it is a run there, and its line, its info and what stands
in front of it are those of the run. -/
structure IsFenceOf (text : Text) (f : Fence) : Prop where
  run : IsFenceRun text f.start f.length f.char
  stands : f.StandsIn text
  info_eq : f.info = trim (slice text f.stop f.lineEnd)
  atLineStart_eq : f.atLineStart = isBlankText (slice text f.lineStart f.start)

theorem isFenceOf_of_mem_all {text : Text} (hf : f ∈ all text) : f.IsFenceOf text := by
  have hstands := standsIn_of_mem_all hf
  obtain ⟨before, line, behind, rfl, hends, -, hbehind, hf⟩ := exists_line_of_mem_all hf
  obtain ⟨front, rest, c, n, rfl, hrun, rfl⟩ := mem_ofLine_iff.mp hf
  have hwide := (hrun.widen hends hbehind).isFenceRun
  have hlead := slice_append_append before front (List.replicate n c ++ (rest ++ behind))
  have hinfo := slice_append_append (before ++ (front ++ List.replicate n c)) rest behind
  refine ⟨by simpa [ofRun] using hwide, hstands, ?_, ?_⟩
  · simp only [ofRun, stop, List.length_append, List.length_replicate, List.append_assoc,
      Nat.add_assoc] at hinfo ⊢
    rw [hinfo]
  · simp only [ofRun, List.append_assoc] at hlead ⊢
    rw [hlead]

theorem exists_of_isFenceRun {text : Text} {start : Nat} (h : IsFenceRun text start n c) :
    ∃ f ∈ all text, f.start = start ∧ f.length = n ∧ f.char = c := by
  obtain ⟨above, below, rfl, rfl, hrun⟩ := h.exists_between
  obtain ⟨before, front, rfl, hends, hfront⟩ := exists_lastLine above
  obtain ⟨rest, behind, rfl, hrest, hbehind⟩ := exists_firstLine below
  have hrun := hrun.narrow
  have hfeed : '\n' ∉ List.replicate n c := by
    intro hmem
    have hchar := hrun.fenceChar
    rw [← List.eq_of_mem_replicate hmem] at hchar
    exact absurd hchar (by decide)
  have hline : '\n' ∉ front ++ (List.replicate n c ++ rest) := by simp [hfront, hfeed, hrest]
  have hmem := mem_all_of_line hends hline hbehind
    (mem_ofLine_iff.mpr ⟨front, rest, c, n, rfl, hrun, rfl⟩)
  refine ⟨_, by simpa using hmem, ?_, rfl, rfl⟩
  simp [ofRun]

/-- The fences of a text are the longest runs of a fence character that are three characters long or
longer, in the order in which they stand and apart from one another. Each is told truly. -/
theorem all_runs (text : Text) :
    (all text).Pairwise (fun f g => f.stop ≤ g.start) ∧ (∀ f ∈ all text, f.IsFenceOf text) ∧
      ∀ start length c, IsFenceRun text start length c →
        ∃ f ∈ all text, f.start = start ∧ f.length = length ∧ f.char = c :=
  ⟨(all_pairwise text).imp fun h => h.stop_le, fun _ => isFenceOf_of_mem_all,
    fun _ _ _ => exists_of_isFenceRun⟩

/-- Runs of the two characters beside each other, and one that ends the text. -/
example : (all "``~~~~```x\n  ```").map (fun f => (f.start, f.length, f.atLineStart)) =
    [(2, 4, false), (6, 3, false), (13, 3, true)] := by decide

end Fence

end CodeGraft
