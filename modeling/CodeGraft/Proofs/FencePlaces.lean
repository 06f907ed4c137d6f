import CodeGraft.Proofs.Documents

/-!
# Where fences stand

The offsets of a fence are those of its run and of its line in the text. The fences of a text come in
the order in which they stand, and a fence at the start of a line has a line of its own in front of all
that follow it.
-/

namespace CodeGraft

open Text

/-- Whether two offsets are those between which a line of the text stands. -/
structure IsLine (text : Text) (start stop : Nat) : Prop where
  start_le : start ≤ stop
  stop_le : stop ≤ text.length
  begins : start = 0 ∨ text[start - 1]? = some '\n'
  ends : stop = text.length ∨ text[stop]? = some '\n'
  whole : '\n' ∉ slice text start stop

theorem EndsLine.begins {before : Text} (h : EndsLine before) (behind : Text) :
    before.length = 0 ∨ (before ++ behind)[before.length - 1]? = some '\n' := by
  rcases h with rfl | h
  · exact Or.inl rfl
  · refine Or.inr ?_
    have hpos : 0 < before.length := List.length_pos_iff.mpr (by rintro rfl; cases h)
    rwa [List.getElem?_append_left (by omega), ← List.getLast?_eq_getElem?]

theorem isLine_append {before line behind : Text} (hends : EndsLine before) (hline : '\n' ∉ line)
    (hbehind : behind = [] ∨ behind.head? = some '\n') :
    IsLine (before ++ (line ++ behind)) before.length (before.length + line.length) where
  start_le := Nat.le_add_right _ _
  stop_le := by simp
  begins := hends.begins _
  ends := by
    rcases hbehind with rfl | hhead
    · exact Or.inl (by simp)
    · refine Or.inr ?_
      rw [← List.append_assoc, ← List.length_append, List.getElem?_append_right (Nat.le_refl _),
        Nat.sub_self, ← List.head?_eq_getElem?, hhead]
  whole := by rwa [slice_append_append]

namespace Fence

variable {lineStart lineEnd : Nat} {left : Text} {runs : List Text} {f : Fence}

theorem not_isBlankText_of_charOf? {run : Text} {c : Char} (h : charOf? run = some c) :
    isBlankText run = false := by
  cases run with
  | nil => cases h
  | cons d run =>
    simp only [charOf?, Bool.and_eq_true, decide_eq_true_eq, Option.ite_none_right_eq_some,
      Option.some.injEq] at h
    have hblank : isBlank d = false := by
      cases hd : isBlank d with
      | false => rfl
      | true =>
        rw [not_isFenceChar_of_isBlank hd] at h
        exact absurd h.1.1 (by simp)
    simp [isBlankText, hblank]

/-- Where the fences of a line stand that are behind what stands on the left. -/
structure Inside (lineStart lineEnd left right : Nat) (f : Fence) : Prop where
  lineStart_eq : f.lineStart = lineStart
  lineEnd_eq : f.lineEnd = lineEnd
  left_le : lineStart + left ≤ f.start
  stop_le : f.stop ≤ lineStart + right

theorem inside_of_mem_ofRuns (hf : f ∈ ofRuns lineStart lineEnd left runs) :
    f.Inside lineStart lineEnd left.length (left.length + runs.flatten.length) := by
  induction runs generalizing left with
  | nil => cases hf
  | cons run runs ih =>
    have hrest : f ∈ ofRuns lineStart lineEnd (left ++ run) runs →
        f.Inside lineStart lineEnd left.length (left.length + (run :: runs).flatten.length) := by
      intro hf
      have h := ih hf
      have hleft := h.left_le
      have hstop := h.stop_le
      simp only [List.length_append, List.flatten_cons] at hleft hstop ⊢
      exact ⟨h.lineStart_eq, h.lineEnd_eq, by omega, by omega⟩
    simp only [ofRuns] at hf
    split at hf
    · exact hrest hf
    · rcases List.mem_cons.mp hf with rfl | hf
      · refine ⟨rfl, rfl, Nat.le_refl _, ?_⟩
        simp only [stop, List.flatten_cons, List.length_append]
        omega
      · exact hrest hf

theorem atLineStart_of_mem_ofRuns (hleft : isBlankText left = false)
    (hf : f ∈ ofRuns lineStart lineEnd left runs) : f.atLineStart = false := by
  induction runs generalizing left with
  | nil => cases hf
  | cons run runs ih =>
    have hnext : isBlankText (left ++ run) = false := by
      simp only [isBlankText, List.all_append, Bool.and_eq_false_iff] at hleft ⊢
      exact Or.inl hleft
    simp only [ofRuns] at hf
    split at hf
    · exact ih hnext hf
    · rcases List.mem_cons.mp hf with rfl | hf
      · exact hleft
      · exact ih hnext hf

/-- Whether one fence stands in front of another one. A fence at the start of a line has no other
fence in front of it on that line. -/
structure Precedes (f g : Fence) : Prop where
  stop_le : f.stop ≤ g.start
  lineEnd_le : f.lineEnd ≤ g.lineEnd
  line_lt : g.atLineStart = true → f.lineEnd < g.lineStart

theorem pairwise_ofRuns : (ofRuns lineStart lineEnd left runs).Pairwise Precedes := by
  induction runs generalizing left with
  | nil => exact List.Pairwise.nil
  | cons run runs ih =>
    simp only [ofRuns]
    split
    · exact ih
    next c hc =>
      refine List.pairwise_cons.mpr ⟨fun g hg => ?_, ih⟩
      have hinside := inside_of_mem_ofRuns hg
      have hleft := hinside.left_le
      rw [List.length_append, ← Nat.add_assoc] at hleft
      have hblank : isBlankText (left ++ run) = false := by
        simp only [isBlankText, List.all_append, Bool.and_eq_false_iff]
        exact Or.inr (not_isBlankText_of_charOf? hc)
      refine ⟨hleft, by rw [hinside.lineEnd_eq], fun hstart => ?_⟩
      rw [atLineStart_of_mem_ofRuns hblank hg] at hstart
      cases hstart

theorem inside_of_mem_ofLine {line : Text} (hf : f ∈ ofLine lineStart line) :
    f.Inside lineStart (lineStart + line.length) 0 line.length := by
  have h := inside_of_mem_ofRuns hf
  rwa [List.flatten_splitBy, List.length_nil, Nat.zero_add] at h

/-! ### Fences of a text -/

theorem lineStart_le_of_mem_ofLines {ls : List Text} (hf : f ∈ ofLines lineStart ls) :
    lineStart ≤ f.lineStart ∧ lineStart ≤ f.start ∧ f.lineStart ≤ f.lineEnd := by
  induction ls generalizing lineStart with
  | nil => cases hf
  | cons line ls ih =>
    rcases List.mem_append.mp hf with hf | hf
    · have h := inside_of_mem_ofLine hf
      have hleft := h.left_le
      rw [h.lineStart_eq, h.lineEnd_eq]
      omega
    · have h := ih hf
      omega

theorem pairwise_ofLines (ls : List Text) : (ofLines lineStart ls).Pairwise Precedes := by
  induction ls generalizing lineStart with
  | nil => exact List.Pairwise.nil
  | cons line ls ih =>
    refine List.pairwise_append.mpr ⟨pairwise_ofRuns, ih, fun f hf g hg => ?_⟩
    have hf := inside_of_mem_ofLine hf
    have hstop := hf.stop_le
    have hg := lineStart_le_of_mem_ofLines hg
    have hend := hf.lineEnd_eq
    exact ⟨by omega, by omega, fun _ => by omega⟩

theorem all_pairwise (text : Text) : (all text).Pairwise Precedes := pairwise_ofLines (lines text)

/-- Whether a fence stands in a text where its offsets say. -/
structure StandsIn (text : Text) (f : Fence) : Prop where
  line : IsLine text f.lineStart f.lineEnd
  lineStart_le : f.lineStart ≤ f.start
  stop_le : f.stop ≤ f.lineEnd

theorem exists_line_of_mem_ofLines {before : Text} {ls : List Text} (hends : EndsLine before)
    (hls : ∀ line ∈ ls, '\n' ∉ line) (hf : f ∈ ofLines before.length ls) :
    ∃ front line behind, before ++ unlines ls = front ++ (line ++ behind) ∧ EndsLine front ∧
      '\n' ∉ line ∧ (behind = [] ∨ behind.head? = some '\n') ∧ f ∈ ofLine front.length line := by
  induction ls generalizing before with
  | nil => cases hf
  | cons line ls ih =>
    have hline := hls line (by simp)
    obtain ⟨behind, hbehind, htext⟩ : ∃ behind : Text,
        (behind = [] ∨ behind.head? = some '\n') ∧ unlines (line :: ls) = line ++ behind := by
      cases ls with
      | nil => exact ⟨[], Or.inl rfl, by simp [unlines, joinWith]⟩
      | cons l ls => exact ⟨_, Or.inr rfl, unlines_cons line (List.cons_ne_nil l ls)⟩
    rcases List.mem_append.mp hf with hf | hf
    · exact ⟨before, line, behind, by rw [htext], hends, hline, hbehind, hf⟩
    · cases ls with
      | nil => cases hf
      | cons l ls =>
        have hnext : EndsLine (before ++ (line ++ ['\n'])) := Or.inr (by simp)
        have h := @ih (before ++ (line ++ ['\n'])) hnext (fun l hl => hls l (by simp [hl]))
          (by simpa [Nat.add_assoc] using hf)
        rw [unlines_cons line (List.cons_ne_nil l ls)]
        simpa using h

theorem exists_line_of_mem_all {text : Text} (hf : f ∈ all text) :
    ∃ front line behind, text = front ++ (line ++ behind) ∧ EndsLine front ∧ '\n' ∉ line ∧
      (behind = [] ∨ behind.head? = some '\n') ∧ f ∈ ofLine front.length line := by
  have h : ∃ front line behind, [] ++ unlines (lines text) = front ++ (line ++ behind) ∧ _ :=
    exists_line_of_mem_ofLines (Or.inl rfl) (fun _ hline => not_mem_of_mem_splitOn hline) hf
  rwa [List.nil_append, unlines_lines] at h

theorem standsIn_of_mem_all {text : Text} (hf : f ∈ all text) : f.StandsIn text := by
  obtain ⟨front, line, behind, rfl, hends, hline, hbehind, hf⟩ := exists_line_of_mem_all hf
  have h := inside_of_mem_ofLine hf
  have hleft := h.left_le
  refine ⟨?_, by rw [h.lineStart_eq]; omega, by rw [h.lineEnd_eq]; exact h.stop_le⟩
  rw [h.lineStart_eq, h.lineEnd_eq]
  exact isLine_append hends hline hbehind

end Fence

/-- The fence that closes a region stands among those behind the opening one. -/
theorem Region.exists_of_closer? {inner : Char × Nat} {outer : List (Char × Nat)}
    {fences rest : List Fence} {f : Fence} (h : closer? inner outer fences = some (f, rest)) :
    ∃ front, fences = front ++ f :: rest := by
  induction fences generalizing inner outer with
  | nil => cases h
  | cons g fences ih =>
    have hbehind : ∀ {inner outer}, closer? inner outer fences = some (f, rest) →
        ∃ front, g :: fences = front ++ f :: rest := by
      intro inner outer h
      obtain ⟨front, rfl⟩ := ih h
      exact ⟨g :: front, rfl⟩
    simp only [closer?] at h
    split at h
    · exact hbehind h
    · split at h
      · cases outer with
        | nil =>
          cases h
          exact ⟨[], rfl⟩
        | cons next outer => exact hbehind h
      · exact hbehind h

end CodeGraft
