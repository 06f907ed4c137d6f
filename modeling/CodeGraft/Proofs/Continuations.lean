import CodeGraft.Proofs.RegionPlaces

/-!
# Texts that go on

The regions of a text whose last line is ended stay what they are, whatever is written behind it. Only
regions that were left open, or that begin behind the text, come after them.
-/

namespace CodeGraft

open Text

namespace Text

theorem slice_append_of_le {text : Text} (more : Text) {stop : Nat} (h : stop ≤ text.length)
    (start : Nat) : slice (text ++ more) start stop = slice text start stop := by
  rw [slice, slice, List.take_append_of_le_length h]

end Text

namespace Fence

theorem all_nil : all [] = [] := by decide

theorem all_append {text : Text} (h : EndsLine text) (more : Text) :
    all (text ++ more) = all text ++ ofLines text.length (lines more) := by
  rcases h with rfl | h
  · rw [all_nil]
    rfl
  · obtain ⟨init, rfl⟩ := List.getLast?_eq_some_iff.mp h
    have hnone : ∀ lineStart, ofLines lineStart (lines []) = [] := fun _ => rfl
    rw [all, all, List.append_assoc, List.singleton_append, ofLines_lines_append,
      ofLines_lines_append, hnone, List.append_nil]
    simp

theorem lineEnd_lt_of_mem_all {text : Text} (h : EndsLine text) {f : Fence} (hf : f ∈ all text) :
    f.lineEnd < text.length := by
  rcases h with rfl | h
  · cases hf
  · obtain ⟨init, rfl⟩ := List.getLast?_eq_some_iff.mp h
    have hnone : ∀ lineStart, ofLines lineStart (lines []) = [] := fun _ => rfl
    rw [all, ofLines_lines_append, hnone, List.append_nil] at hf
    have hstands : f.StandsIn init := standsIn_of_mem_all hf
    have hend := hstands.line.stop_le
    simp
    omega

end Fence

namespace Region

theorem closer?_append {inner : Char × Nat} {outer : List (Char × Nat)} {fences rest : List Fence}
    {f : Fence} (h : closer? inner outer fences = some (f, rest)) (later : List Fence) :
    closer? inner outer (fences ++ later) = some (f, rest ++ later) := by
  fun_induction closer? inner outer fences with
  | case1 inner outer => cases h
  | case2 inner outer g fences hopens ih =>
    simp only [List.cons_append, closer?, if_pos hopens]
    exact ih h
  | case3 inner g fences hopens hcloses =>
    cases h
    rw [List.cons_append, closer?, if_neg hopens, if_pos hcloses]
  | case4 inner g fences hopens hcloses next outer ih =>
    rw [List.cons_append, closer?, if_neg hopens, if_pos hcloses]
    exact ih h
  | case5 inner outer g fences hopens hcloses ih =>
    simp only [List.cons_append, closer?, if_neg hopens, if_neg hcloses]
    exact ih h

theorem codeStop_append {text : Text} (more : Text) (start : Nat) {closer : Fence}
    (h : closer.StandsIn text) :
    codeStop (text ++ more) start closer = codeStop text start closer := by
  have hline := h.line.start_le
  have hend := h.line.stop_le
  simp only [codeStop]
  split
  · rfl
  · by_cases hpos : 0 < closer.lineStart
    · rw [List.getElem?_append_left (by omega), List.getElem?_append_left (by omega)]
    · simp [hpos]

theorem between_append {text : Text} (more : Text) (floor : Nat) {opener closer : Fence}
    (hopener : opener.StandsIn text) (hend : opener.lineEnd < text.length)
    (hcloser : closer.StandsIn text) :
    between (text ++ more) floor opener closer = between text floor opener closer := by
  have hbounds := codeStop_bounds hcloser (opener.lineEnd + 1)
  have hline := hopener.line.start_le
  have hcloses := hcloser.line.stop_le
  simp only [between]
  rw [codeStop_append more _ hcloser, slice_append_of_le more (by omega),
    slice_append_of_le more (by omega)]

/-- The regions that some fences make come first when text and fences are written behind. -/
theorem ofFences_append {text : Text} (more : Text) (floor : Nat) {fences : List Fence}
    (hstands : ∀ f ∈ fences, f.StandsIn text) (hends : ∀ f ∈ fences, f.lineEnd < text.length)
    (later : List Fence) :
    ofFences text floor fences <+: ofFences (text ++ more) floor (fences ++ later) := by
  fun_induction ofFences text floor fences with
  | case1 floor => exact List.nil_prefix
  | case2 floor opener fences hskip ih =>
    have hend := hends opener (by simp)
    have hstart : opener.atLineStart = false := by
      simpa [Nat.not_le.mpr hend] using hskip
    rw [List.cons_append, ofFences, if_pos (by simp [hstart])]
    exact ih (fun f hf => hstands f (by simp [hf])) (fun f hf => hends f (by simp [hf]))
  | case3 floor opener fences hopens hnone => exact List.nil_prefix
  | case4 floor opener fences hopens closer rest hcloser ih =>
    simp only [Bool.or_eq_true, Bool.not_eq_true', decide_eq_true_eq, not_or,
      Bool.not_eq_false, not_le] at hopens
    obtain ⟨hstart, hend⟩ := hopens
    obtain ⟨front, rfl⟩ := exists_of_closer? hcloser
    have hlonger : opener.lineEnd < (text ++ more).length := by
      rw [List.length_append]
      omega
    rw [List.cons_append, ofFences_cons hstart hlonger (closer?_append hcloser later),
      between_append more floor (hstands opener (by simp)) hend (hstands closer (by simp)),
      List.prefix_cons_inj]
    exact ih (fun f hf => hstands f (by simp [hf])) (fun f hf => hends f (by simp [hf]))

end Region

/-- What is written behind an ended line changes nothing in the regions and the code blocks that
there are already. -/
theorem regions_append_of_endsLine {text : Text} (h : EndsLine text) (more : Text) :
    Region.all text <+: Region.all (text ++ more) ∧ blocks text <+: blocks (text ++ more) := by
  have hregions : Region.all text <+: Region.all (text ++ more) := by
    rw [Region.all, Region.all, Fence.all_append h]
    exact Region.ofFences_append more 0 (fun f hf => Fence.standsIn_of_mem_all hf)
      (fun f hf => Fence.lineEnd_lt_of_mem_all h hf) _
  exact ⟨hregions, (hregions.map Block.ofRegion).filterMap Except.toOption⟩

/-- Behind a block, a fence that is left open is closed later, and a block of its own begins. -/
theorem regions_append_of_openFence :
    let text : Text := "a.py\n```py\nx\n```\nb.py\n~~~\n```\n"
    let more : Text := "y\n~~~"
    EndsLine text ∧ (Region.all text <+: Region.all (text ++ more) ∧
        blocks text <+: blocks (text ++ more)) ∧
      blocks text = [⟨"a.py", "py", "x"⟩] ∧
      blocks (text ++ more) = [⟨"a.py", "py", "x"⟩, ⟨"b.py", [], "```\ny"⟩] :=
  ⟨by decide +kernel, regions_append_of_endsLine (by decide +kernel) _, by decide +kernel,
    by decide +kernel⟩

/-- A closing fence whose line goes on closes nothing. -/
example :
    let text : Text := "a.py\n```py\nx\n```"
    ¬ blocks text <+: blocks (text ++ ['y']) := by
  decide +kernel

end CodeGraft
