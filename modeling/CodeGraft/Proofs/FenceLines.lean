import CodeGraft.Fence.Region
import Mathlib.Data.List.SplitBy

/-!
# Fences line by line

A text without three equal fence characters in a row makes no fence. A line that begins with a fence
makes that fence and those of its info. Lines that are free of fences, or that belong to closed
regions, never close the region around them.
-/

namespace CodeGraft

open Text

/-- A text without a run of three fence characters. -/
def FenceFree (text : Text) : Prop :=
  ¬ List.replicate 3 '`' <:+: text ∧ ¬ List.replicate 3 '~' <:+: text

instance (text : Text) : Decidable (FenceFree text) :=
  inferInstanceAs (Decidable (_ ∧ _))

theorem FenceFree.of_infix {a b : Text} (hb : FenceFree b) (h : a <:+: b) : FenceFree a :=
  ⟨fun ha => hb.1 (ha.trans h), fun ha => hb.2 (ha.trans h)⟩

theorem FenceFree.not_replicate {text : Text} (h : FenceFree text) {c : Char}
    (hc : isFenceChar c = true) : ¬ List.replicate 3 c <:+: text := by
  simp only [isFenceChar, Bool.or_eq_true, decide_eq_true_eq] at hc
  rcases hc with rfl | rfl
  · exact h.1
  · exact h.2

theorem fenceFree_of_not_isFenceChar {text : Text} (h : ∀ c ∈ text, isFenceChar c = false) :
    FenceFree text := by
  have hfree : ∀ c, isFenceChar c = true → ¬ List.replicate 3 c <:+: text := by
    intro c hc hinfix
    have hmem : c ∈ text := hinfix.subset (by simp)
    rw [h c hmem] at hc
    cases hc
  exact ⟨hfree _ rfl, hfree _ rfl⟩

theorem not_isFenceChar_of_isBlank {c : Char} (h : isBlank c = true) : isFenceChar c = false := by
  cases hc : isFenceChar c with
  | false => rfl
  | true =>
    simp only [isFenceChar, Bool.or_eq_true, decide_eq_true_eq] at hc
    rcases hc with rfl | rfl <;> exact absurd h (by decide)

theorem fenceFree_of_blank {text : Text} (h : isBlankText text = true) : FenceFree text := by
  refine fenceFree_of_not_isFenceChar fun c hc => not_isFenceChar_of_isBlank ?_
  exact List.all_eq_true.mp h c hc

namespace Fence

/-! ### Fences of a line -/

variable {lineStart lineEnd : Nat} {left : Text} {runs more : List Text}

theorem eq_replicate_of_charOf? {text run : Text} {c : Char} (hrun : run ∈ text.splitBy (· == ·))
    (h : charOf? run = some c) :
    isFenceChar c = true ∧ 3 ≤ run.length ∧ run = List.replicate run.length c := by
  have hchain := List.isChain_of_mem_splitBy hrun
  cases run with
  | nil => cases h
  | cons d run =>
    simp only [charOf?, Bool.and_eq_true, decide_eq_true_eq, Option.ite_none_right_eq_some,
      Option.some.injEq] at h
    obtain ⟨⟨hd, hlength⟩, rfl⟩ := h
    simp only [beq_iff_eq, List.isChain_cons_eq_iff_eq_replicate] at hchain
    refine ⟨hd, Nat.succ_le_succ hlength, ?_⟩
    rw [List.length_cons, List.replicate_succ, ← hchain]

theorem charOf?_replicate {c : Char} {n : Nat} (hc : isFenceChar c = true) (hn : 3 ≤ n) :
    charOf? (List.replicate n c) = some c := by
  obtain ⟨m, rfl⟩ : ∃ m, n = m + 3 := ⟨n - 3, by omega⟩
  simp [charOf?, List.replicate_succ, hc]

theorem charOf?_of_fenceFree {text run : Text} (h : FenceFree text)
    (hrun : run ∈ text.splitBy (· == ·)) : charOf? run = none := by
  have hinfix : run <:+: text := by
    have := List.infix_of_mem_flatten hrun
    rwa [List.flatten_splitBy] at this
  cases hfence : charOf? run with
  | none => rfl
  | some c =>
    obtain ⟨hc, hlength, heq⟩ := eq_replicate_of_charOf? hrun hfence
    have htriple : List.replicate 3 c <:+: run := by
      rw [heq, List.infix_replicate_iff]
      exact ⟨by simpa using hlength, by simp⟩
    exact absurd (htriple.trans hinfix) (h.not_replicate hc)

theorem ofRuns_append_of_free (h : ∀ run ∈ runs, charOf? run = none) :
    ofRuns lineStart lineEnd left (runs ++ more) =
      ofRuns lineStart lineEnd (left ++ runs.flatten) more := by
  induction runs generalizing left with
  | nil => simp
  | cons run runs ih =>
    simp only [List.cons_append, ofRuns, h run (by simp)]
    rw [ih fun r hr => h r (by simp [hr])]
    simp

theorem ofRuns_of_free (h : ∀ run ∈ runs, charOf? run = none) :
    ofRuns lineStart lineEnd left runs = [] := by
  have hruns : ofRuns lineStart lineEnd left (runs ++ []) =
      ofRuns lineStart lineEnd (left ++ runs.flatten) [] := ofRuns_append_of_free h
  simpa [ofRuns] using hruns

/-- The runs of equal characters of a text, one of which no character beside it makes longer. -/
theorem splitBy_run {front behind : Text} {c : Char} {n : Nat} (hn : 0 < n)
    (hfront : front.getLast? ≠ some c) (hbehind : behind.head? ≠ some c) :
    (front ++ (List.replicate n c ++ behind)).splitBy (· == ·) =
      front.splitBy (· == ·) ++ List.replicate n c :: behind.splitBy (· == ·) := by
  obtain ⟨m, rfl⟩ : ∃ m, n = m + 1 := ⟨n - 1, by omega⟩
  have hrun : (List.replicate (m + 1) c).splitBy (· == ·) = [List.replicate (m + 1) c] := by
    refine List.splitBy_of_isChain (by simp) ?_
    simp only [beq_iff_eq]
    exact List.isChain_replicate_of_rel _ rfl
  rw [List.splitBy_append, List.splitBy_append, hrun, List.singleton_append]
  · intro x hx y hy
    obtain rfl : x = c := List.eq_of_mem_replicate (List.mem_of_getLast? hx)
    simpa using fun h : x = y => hbehind (h ▸ hy)
  · intro x hx y hy
    obtain rfl : c = y := by simpa [List.replicate_succ] using hy
    simpa using fun h : x = c => hfront (h ▸ hx)

theorem splitBy_fence {lead info : Text} {c : Char} {n : Nat} (hn : 3 ≤ n)
    (hlead : isBlankText lead = true) (hc : isFenceChar c = true) (hinfo : info.head? ≠ some c) :
    (lead ++ (List.replicate n c ++ info)).splitBy (· == ·) =
      lead.splitBy (· == ·) ++ List.replicate n c :: info.splitBy (· == ·) := by
  refine splitBy_run (by omega) (fun hlast => ?_) hinfo
  have hblank := List.all_eq_true.mp hlead c (List.mem_of_getLast? hlast)
  rw [not_isFenceChar_of_isBlank hblank] at hc
  cases hc

theorem ofLine_of_fenceFree {line : Text} (h : FenceFree line) : ofLine lineStart line = [] :=
  ofRuns_of_free fun _ hrun => charOf?_of_fenceFree h hrun

theorem ofLine_fence {lead info : Text} {c : Char} {n : Nat} (hlead : isBlankText lead = true)
    (hc : isFenceChar c = true) (hn : 3 ≤ n) (hfree : FenceFree info) (hinfo : info.head? ≠ some c) :
    ofLine lineStart (lead ++ (List.replicate n c ++ info)) =
      [{ start := lineStart + lead.length, char := c, length := n, info := trim info, lineStart,
         lineEnd := lineStart + (lead.length + (n + info.length)), atLineStart := true }] := by
  have hleft : ∀ run ∈ lead.splitBy (· == ·), charOf? run = none :=
    fun _ hrun => charOf?_of_fenceFree (fenceFree_of_blank hlead) hrun
  have hright : ∀ run ∈ info.splitBy (· == ·), charOf? run = none :=
    fun _ hrun => charOf?_of_fenceFree hfree hrun
  rw [ofLine, splitBy_fence hn hlead hc hinfo, ofRuns_append_of_free hleft, ofRuns,
    charOf?_replicate hc hn]
  simp [ofRuns_of_free hright, hlead]

theorem ofLines_append (a b : List Text) :
    ofLines lineStart (a ++ b) = ofLines lineStart a ++ ofLines (lineStart + linesLength a) b := by
  induction a generalizing lineStart with
  | nil => simp [ofLines, linesLength]
  | cons line a ih => simp [ofLines, linesLength, ih, Nat.add_assoc]

theorem ofLines_of_fenceFree {ls : List Text} (h : ∀ line ∈ ls, FenceFree line) :
    ofLines lineStart ls = [] := by
  induction ls generalizing lineStart with
  | nil => rfl
  | cons line ls ih =>
    rw [ofLines, ofLine_of_fenceFree (h line (by simp)), ih fun l hl => h l (by simp [hl])]
    rfl

theorem ofLines_lines_append (a b : Text) :
    ofLines lineStart (lines (a ++ '\n' :: b)) =
      ofLines lineStart (lines a) ++ ofLines (lineStart + (a.length + 1)) (lines b) := by
  rw [lines_append, ofLines_append, linesLength_lines]

theorem ofLines_lines_of_not_mem {line : Text} (h : '\n' ∉ line) :
    ofLines lineStart (lines line) = ofLine lineStart line := by
  simp [lines_of_not_mem h, ofLines]

end Fence

/-- Lines that are free of fences, or belong to regions that are closed among them: the line of a
fence with an info, lines of the same kind, and the line of a bare fence that fits the first one. -/
inductive Nested : List Text → Prop
  | nil : Nested []
  | plain {line : Text} {ls : List Text} (hline : FenceFree line) (hrest : Nested ls) :
      Nested (line :: ls)
  | region {lead info lead' trail : Text} {c : Char} {n m : Nat} {inner ls : List Text}
      (hc : isFenceChar c = true) (hn : 3 ≤ n) (hlead : isBlankText lead = true)
      (hinfo : isBlankText info = false) (hfree : FenceFree info) (hhead : info.head? ≠ some c)
      (hinner : Nested inner) (hm : n ≤ m) (hlead' : isBlankText lead' = true)
      (htrail : isBlankText trail = true) (hrest : Nested ls) :
      Nested ((lead ++ (List.replicate n c ++ info)) ::
        (inner ++ (lead' ++ (List.replicate m c ++ trail)) :: ls))

theorem Region.closer?_nested {ls : List Text} (h : Nested ls) {lineStart : Nat}
    {inner : Char × Nat} {outer : List (Char × Nat)} {fences : List Fence} :
    closer? inner outer (Fence.ofLines lineStart ls ++ fences) = closer? inner outer fences := by
  induction h generalizing lineStart inner outer fences with
  | nil => rfl
  | plain hline hrest ih =>
    rw [Fence.ofLines, Fence.ofLine_of_fenceFree hline, List.nil_append]
    exact ih
  | @region lead info lead' trail c n m body ls hc hn hlead hinfo hfree hhead hinner hm hlead'
      htrail hrest ihinner ihrest =>
    have hcloser : trail.head? ≠ some c := by
      intro hhead
      have hblank := List.all_eq_true.mp htrail c (List.mem_of_head? hhead)
      rw [not_isFenceChar_of_isBlank hblank] at hc
      cases hc
    have hopens : trim info ≠ [] := by simp [trim_eq_nil_iff, hinfo]
    have hcloses : trim trail = [] := (trim_eq_nil_iff trail).mpr htrail
    rw [Fence.ofLines, Fence.ofLine_fence hlead hc hn hfree hhead, Fence.ofLines_append,
      Fence.ofLines, Fence.ofLine_fence hlead' hc (hn.trans hm) (fenceFree_of_blank htrail) hcloser]
    simp only [List.cons_append, List.nil_append, List.append_assoc, closer?]
    rw [if_pos (by simp [Fence.opensNested, hopens]), ihinner, closer?,
      if_neg (by simp [Fence.opensNested, hcloses]),
      if_pos (by simp [Fence.closes, hcloses, hm])]
    exact ihrest

end CodeGraft
