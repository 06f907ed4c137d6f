import CodeGraft.Edit.Plan
import CodeGraft.Proofs.Matching

/-!
# Where a plan puts its edits

A plan replaces shared names, a section or the whole text. In each case its edits are in order, stay
in the existing text and do not overlap, so a plan can always be applied.
-/

namespace CodeGraft

open Text

/-! ### Edits of a match -/

namespace NameMatch

variable {insertNew : Bool} {existing : Index} {all seen : List Span} {m : NameMatch}
  {first : Span}

/-- The one of two replaced spans that starts earlier, the former one when they start together. -/
def earlier (first : Option Span) (pair : Span × Span) : Option Span :=
  match first with
  | none => some pair.2
  | some f => if pair.2.start < f.start then some pair.2 else some f

theorem first?_eq (m : NameMatch) : m.first? = m.replaced.foldl earlier none := rfl

theorem earlier_isSome (first : Option Span) (pair : Span × Span) :
    (earlier first pair).isSome := by
  unfold earlier
  split
  next => rfl
  next => split <;> rfl

theorem earlier_cases {first : Option Span} {pair : Span × Span} {f : Span}
    (h : earlier first pair = some f) : f = pair.2 ∨ first = some f := by
  unfold earlier at h
  split at h
  next => exact Or.inl (Option.some.inj h).symm
  next =>
    split at h
    next => exact Or.inl (Option.some.inj h).symm
    next => exact Or.inr h

theorem foldl_earlier_mem {pairs : List (Span × Span)} {start : Option Span} {f : Span}
    (h : pairs.foldl earlier start = some f) : start = some f ∨ ∃ p ∈ pairs, p.2 = f := by
  induction pairs generalizing start with
  | nil => exact Or.inl h
  | cons pair pairs ih =>
    rcases ih h with hstep | ⟨p, hp, hpf⟩
    · rcases earlier_cases hstep with rfl | hstart
      · exact Or.inr ⟨pair, List.mem_cons_self .., rfl⟩
      · exact Or.inl hstart
    · exact Or.inr ⟨p, List.mem_cons_of_mem _ hp, hpf⟩

theorem foldl_earlier_isSome (pairs : List (Span × Span)) {start : Option Span}
    (h : start.isSome) : (pairs.foldl earlier start).isSome := by
  induction pairs generalizing start with
  | nil => exact h
  | cons pair pairs ih => exact ih (earlier_isSome start pair)

theorem first?_mem (h : m.first? = some first) : ∃ p ∈ m.replaced, p.2 = first := by
  rcases foldl_earlier_mem h with hnone | hmem
  · cases hnone
  · exact hmem

theorem first?_eq_none_iff : m.first? = none ↔ m.replaced = [] := by
  constructor
  · intro h
    cases hr : m.replaced with
    | nil => rfl
    | cons pair pairs =>
      have hsome := foldl_earlier_isSome pairs (earlier_isSome none pair)
      rw [first?_eq, hr, List.foldl_cons] at h
      rw [h] at hsome
      cases hsome
  · intro h
    rw [first?_eq, h]
    rfl

/-- The edits of a match whose earliest replaced span is `first`, before they are sorted. -/
def placed (existing newCode : Text) (first : Span) (m : NameMatch) : List Edit :=
  m.replaced.map (replacement existing newCode) ++
    m.added.map (insertion existing newCode first)

theorem edits_eq_sorted {text newCode : Text} (h : m.first? = some first) :
    m.edits text newCode = Edit.sorted (m.placed text newCode first) := by
  simp only [edits, h, placed]

theorem edits_eq_nil_iff {text newCode : Text} : m.edits text newCode = [] ↔ m.replaced = [] := by
  cases hfirst : m.first? with
  | none =>
    simp only [edits, hfirst, true_iff]
    exact first?_eq_none_iff.mp hfirst
  | some first =>
    obtain ⟨p, hp, -⟩ := first?_mem hfirst
    have hmem : replacement text newCode p ∈ m.edits text newCode := by
      rw [edits_eq_sorted hfirst, Edit.mem_sorted]
      exact List.mem_append_left _ (List.mem_map_of_mem hp)
    exact ⟨fun h => absurd hmem (h ▸ List.not_mem_nil), fun h => absurd hp (h ▸ List.not_mem_nil)⟩

theorem insertion_empty (text newCode : Text) (first : Span) (p : Span × Option Span) :
    (insertion text newCode first p).start = (insertion text newCode first p).stop := by
  obtain ⟨s, anchor⟩ := p
  cases anchor <;> rfl

theorem Sound.insertion_at (text newCode : Text) (hm : Sound insertNew existing all seen m)
    (hfirst : m.first? = some first) {p : Span × Option Span} (hp : p ∈ m.added) :
    ∃ q ∈ m.replaced, (insertion text newCode first p).start = q.2.start ∨
      (insertion text newCode first p).start = q.2.stop := by
  obtain ⟨s, anchor⟩ := p
  cases anchor with
  | none =>
    obtain ⟨q, hq, rfl⟩ := first?_mem hfirst
    exact ⟨q, hq, Or.inl rfl⟩
  | some old =>
    obtain ⟨q, hq, rfl⟩ := hm.added_anchor _ hp old rfl
    exact ⟨q, hq, Or.inr rfl⟩

theorem Sound.placed_within {text newCode : Text} (hm : Sound insertNew existing all seen m)
    (hfirst : m.first? = some first) {e : Edit} (he : e ∈ m.placed text newCode first) :
    ∃ q ∈ m.replaced, q.2.start ≤ e.start ∧ e.start ≤ e.stop ∧ e.stop ≤ q.2.stop := by
  rcases List.mem_append.mp he with he | he
  · obtain ⟨q, hq, rfl⟩ := List.mem_map.mp he
    exact ⟨q, hq, Int.le_refl _, q.2.start_le_stop, Int.le_refl _⟩
  · obtain ⟨p, hp, rfl⟩ := List.mem_map.mp he
    obtain ⟨q, hq, hat⟩ := hm.insertion_at text newCode hfirst hp
    have hempty := insertion_empty text newCode first p
    have hq' := q.2.start_le_stop
    exact ⟨q, hq, by omega, by omega, by omega⟩

/-- An insertion at an end of a replaced span overlaps neither that span nor, since they are
disjoint from it, any of the others. -/
theorem Sound.placed_disjoint {text newCode : Text} (hm : Sound insertNew existing all seen m)
    (hfirst : m.first? = some first) :
    (m.placed text newCode first).Pairwise fun a b => a.overlaps b = false := by
  refine List.pairwise_append.mpr ⟨List.pairwise_map.mpr ?_, List.pairwise_map.mpr ?_, ?_⟩
  · refine hm.replaced_disjoint.imp ?_
    intro p q hpq
    exact hpq
  · refine List.pairwise_of_forall ?_
    intro p q
    have hp := insertion_empty text newCode first p
    have hq := insertion_empty text newCode first q
    rw [Edit.overlaps_eq_false_iff]
    omega
  · intro a ha b hb
    obtain ⟨r, hr, rfl⟩ := List.mem_map.mp ha
    obtain ⟨p, hp, rfl⟩ := List.mem_map.mp hb
    obtain ⟨q, hq, hat⟩ := hm.insertion_at text newCode hfirst hp
    have hempty := insertion_empty text newCode first p
    have hqle := q.2.start_le_stop
    rw [Edit.overlaps_eq_false_iff]
    change ¬(r.2.start < _ ∧ _ < r.2.stop)
    -- the insertion stands at an end of `q`, so it can only reach into `r` if `q` does
    rcases hm.disjoint_or_eq hr hq with rfl | hdisjoint
    · omega
    · rw [Span.overlaps_eq_false_iff] at hdisjoint
      omega

theorem Sound.edits_applicable {text newCode : Text}
    (hm : Sound insertNew (Index.of text) all seen m) :
    Edit.Applicable text (m.edits text newCode) := by
  cases hfirst : m.first? with
  | none =>
    rw [edits_eq_nil_iff.mpr (first?_eq_none_iff.mp hfirst)]
    exact ⟨by simp, List.Pairwise.nil⟩
  | some first =>
    have hplaced : Edit.Applicable text (m.placed text newCode first) := by
      refine ⟨?_, hm.placed_disjoint hfirst⟩
      intro e he
      obtain ⟨q, hq, hstart, hle, hstop⟩ := hm.placed_within hfirst he
      have hin := Index.isIn_of_mem (Index.find?_eq_some_iff.mp (hm.replaced_found q hq)).1
      have h0 := hin.start_nonneg
      have hlen := hin.stop_le
      rw [Edit.inRange_iff]
      omega
    rw [edits_eq_sorted hfirst]
    exact hplaced.perm (Edit.sorted_perm _)

end NameMatch

theorem takeWhile_append_drop (p : Text → Bool) (l : List Text) :
    l.takeWhile p ++ l.drop (l.takeWhile p).length = l :=
  List.prefix_iff_eq_append.mp (List.takeWhile_prefix p)

theorem sectionAround?_spec {ds : List (Text × Text)} {ls : List Text} {s : Sectioned}
    (h : sectionAround? ds ls = some s) : ls = s.above ++ s.body ++ s.below ∧ s.body ≠ [] := by
  have hls := List.takeWhile_append_dropWhile (p := (!mentionsAny ds ·)) (l := ls)
  unfold sectionAround? at h
  split at h
  next => cases h
  next hit below hbelow =>
    rw [hbelow] at hls
    clear hbelow
    generalize ls.takeWhile (!mentionsAny ds ·) = lead at hls h
    have hlead := takeWhile_append_drop (!startsSection ·) lead.reverse
    have hbelow := takeWhile_append_drop (!endsSection ·) below
    simp only [List.length_reverse] at h
    generalize lead.reverse.drop _ = above at hlead h
    generalize lead.reverse.takeWhile _ = up at hlead h
    generalize below.drop _ = rest at hbelow h
    generalize below.takeWhile _ = down at hbelow h
    have hlines : ls = (above.reverse ++ up.reverse) ++ hit :: (down ++ rest) := by
      rw [← List.reverse_append, hlead, List.reverse_reverse, hbelow, hls]
    split at h
    next closer rest =>
      split at h
      next =>
        cases h
        exact ⟨by simp [hlines], by simp⟩
      next =>
        cases h
        exact ⟨by simp [hlines], by simp⟩
    next =>
      cases h
      exact ⟨by simp [hlines], by simp⟩

theorem Sectioned.length_withoutReturns (line : Text) :
    (withoutReturns line).length ≤ line.length := by
  simp only [withoutReturns, List.length_reverse]
  have := (List.dropWhile_suffix (l := line.reverse) (· = '\r')).length_le
  simpa using this

theorem sectionFor?_bounds {existing newCode : Text} {s : Sectioned}
    (h : sectionFor? existing newCode = some s) :
    s.start ≤ s.stop ∧ s.stop ≤ existing.length := by
  obtain ⟨hlines, hbody⟩ := sectionAround?_spec h
  have hlen := Text.linesLength_lines existing
  have hsplit := List.dropLast_concat_getLast hbody
  have hlast : s.body.getLast? = some (s.body.getLast hbody) := List.getLast?_eq_some_getLast hbody
  have hret := Sectioned.length_withoutReturns (s.body.getLast hbody)
  have hsum : linesLength s.body =
      linesLength s.body.dropLast + ((s.body.getLast hbody).length + 1) := by
    conv => lhs; rw [← hsplit, Text.linesLength_append]
    simp [linesLength]
  rw [hlines, Text.linesLength_append, Text.linesLength_append, hsum] at hlen
  simp only [Sectioned.stop, Sectioned.start, hlast, Option.getD_some]
  omega

namespace Index

def SharesName (existing new : Index) : Prop :=
  ∃ s ∈ existing.spans, ∃ t ∈ new.spans, s.name = t.name

end Index

theorem NameMatch.replaced_eq_nil_iff {insertNew : Bool} {existing newCode : Text} :
    (NameMatch.of insertNew (Index.of existing) (Index.of newCode)).replaced = [] ↔
      ¬(Index.of existing).SharesName (Index.of newCode) := by
  constructor
  · rintro hnil ⟨s, hs, t, ht, hname⟩
    obtain ⟨before, behind, horder⟩ := List.append_of_mem (Index.mem_inOrder.mpr ht)
    have hfind := Index.find?_eq_some_iff.mpr ⟨hs, hname⟩
    have hleft := not_mem_replaced_iff insertNew horder (Index.nodup_inOrder newCode) hfind
    rw [hnil] at hleft
    obtain ⟨p, hp, -⟩ := hleft.mp List.not_mem_nil
    cases hp
  · intro hnone
    have hm := of_sound insertNew (Index.of existing) (Index.of newCode)
    rw [List.eq_nil_iff_forall_not_mem]
    intro p hp
    obtain ⟨hold, hname⟩ := Index.find?_eq_some_iff.mp (hm.replaced_found p hp)
    have hnew := hm.replaced_sublist.subset (List.mem_map_of_mem hp)
    exact hnone ⟨p.2, hold, p.1, Index.mem_inOrder.mp hnew, hname⟩

namespace Plan

variable {existing newCode : Text} {insertNew : Bool}

theorem of_sharesName (h : (Index.of existing).SharesName (Index.of newCode)) :
    (Plan.of existing newCode insertNew).tier = .nameMatch ∧
      (Plan.of existing newCode insertNew).edits =
        (NameMatch.of insertNew (Index.of existing) (Index.of newCode)).edits existing newCode := by
  have hne : (NameMatch.of insertNew (Index.of existing) (Index.of newCode)).edits existing newCode
      ≠ [] := by
    rw [Ne, NameMatch.edits_eq_nil_iff, NameMatch.replaced_eq_nil_iff]
    exact not_not_intro h
  obtain ⟨s, hs, -⟩ := h
  have hspans : (Index.of existing).spans.isEmpty = false := by
    rw [List.isEmpty_eq_false_iff_exists_mem]
    exact ⟨s, hs⟩
  simp [Plan.of, hspans, hne]

theorem of_not_sharesName (insertNew : Bool)
    (h : ¬(Index.of existing).SharesName (Index.of newCode)) :
    (∃ s, sectionFor? existing newCode = some s ∧
      (Plan.of existing newCode insertNew).tier = .sectionMatch ∧
      (Plan.of existing newCode insertNew).edits = [⟨s.start, s.stop, newCode⟩]) ∨
    (sectionFor? existing newCode = none ∧
      (Plan.of existing newCode insertNew).tier = .wholeDocument ∧
      (Plan.of existing newCode insertNew).edits = [⟨0, existing.length, newCode⟩]) := by
  have hnil : (NameMatch.of insertNew (Index.of existing) (Index.of newCode)).edits existing newCode
      = [] := NameMatch.edits_eq_nil_iff.mpr (NameMatch.replaced_eq_nil_iff.mpr h)
  have hof : ∃ indexes, Plan.of existing newCode insertNew =
      withoutNames existing newCode indexes := by
    simp only [Plan.of, hnil]
    split
    next => exact ⟨_, rfl⟩
    next => exact ⟨_, rfl⟩
  obtain ⟨indexes, hof⟩ := hof
  rw [hof]
  unfold withoutNames
  cases hsection : sectionFor? existing newCode with
  | some s => exact Or.inl ⟨s, rfl, rfl, rfl⟩
  | none => exact Or.inr ⟨rfl, rfl, rfl⟩

theorem of_tier_iff (existing newCode : Text) (insertNew : Bool) :
    (Plan.of existing newCode insertNew).tier = .nameMatch ↔
      (Index.of existing).SharesName (Index.of newCode) := by
  by_cases h : (Index.of existing).SharesName (Index.of newCode)
  · simp [h, (of_sharesName h).1]
  · rcases of_not_sharesName insertNew h with ⟨s, -, htier, -⟩ | ⟨-, htier, -⟩
    · simp [h, htier]
    · simp [h, htier]

theorem of_applicable (existing newCode : Text) (insertNew : Bool) :
    Edit.Applicable existing (Plan.of existing newCode insertNew).edits := by
  by_cases h : (Index.of existing).SharesName (Index.of newCode)
  · rw [(of_sharesName h).2]
    exact (NameMatch.of_sound insertNew (Index.of existing) (Index.of newCode)).edits_applicable
  · rcases of_not_sharesName insertNew h with ⟨s, hs, -, hedits⟩ | ⟨-, -, hedits⟩
    · have hbounds := sectionFor?_bounds hs
      rw [hedits]
      exact Edit.applicable_singleton newCode hbounds.1 hbounds.2
    · rw [hedits]
      exact Edit.applicable_singleton newCode (Nat.zero_le _) (Nat.le_refl _)

theorem sorted_of_edits (existing newCode : Text) (insertNew : Bool) :
    Edit.sorted (Plan.of existing newCode insertNew).edits =
      (Plan.of existing newCode insertNew).edits := by
  by_cases h : (Index.of existing).SharesName (Index.of newCode)
  · rw [(of_sharesName h).2]
    cases hfirst : (NameMatch.of insertNew (Index.of existing) (Index.of newCode)).first? with
    | none => simp only [NameMatch.edits, hfirst, Edit.sorted, List.mergeSort_nil]
    | some first =>
      rw [NameMatch.edits_eq_sorted hfirst]
      exact List.mergeSort_of_pairwise (Edit.sorted_pairwise _)
  · rcases of_not_sharesName insertNew h with ⟨s, -, -, hedits⟩ | ⟨-, -, hedits⟩
    · rw [hedits, Edit.sorted, List.mergeSort_singleton]
    · rw [hedits, Edit.sorted, List.mergeSort_singleton]

theorem of_edits_ne_nil (existing newCode : Text) (insertNew : Bool) :
    (Plan.of existing newCode insertNew).edits ≠ [] := by
  by_cases h : (Index.of existing).SharesName (Index.of newCode)
  · rw [(of_sharesName h).2, Ne, NameMatch.edits_eq_nil_iff, NameMatch.replaced_eq_nil_iff]
    exact not_not_intro h
  · rcases of_not_sharesName insertNew h with ⟨s, -, -, hedits⟩ | ⟨-, -, hedits⟩
    · simp [hedits]
    · simp [hedits]

/-- A plan is never empty. Its edits are sorted by start and then by end, stay in the existing text
and do not overlap, whatever they were found by, so it can always be applied. -/
theorem of_can_be_applied (existing newCode : Text) (insertNew : Bool) :
    let plan := Plan.of existing newCode insertNew
    plan.edits ≠ [] ∧
      plan.edits.Pairwise (fun a b => a.start < b.start ∨ (a.start = b.start ∧ a.stop ≤ b.stop)) ∧
      (∀ e ∈ plan.edits, 0 ≤ e.start ∧ e.start ≤ e.stop ∧ e.stop ≤ existing.length) ∧
      plan.edits.Pairwise (fun a b => ¬(a.start < b.stop ∧ b.start < a.stop)) ∧
      ∃ result, plan.apply existing = .ok result := by
  intro plan
  have happlicable := of_applicable existing newCode insertNew
  have hsorted := Edit.sorted_pairwise plan.edits
  rw [show Edit.sorted plan.edits = plan.edits from
    sorted_of_edits existing newCode insertNew] at hsorted
  refine ⟨of_edits_ne_nil existing newCode insertNew, ?_, ?_, ?_, ?_⟩
  · exact hsorted.imp Edit.precedes_iff.mp
  · intro e he
    exact Edit.inRange_iff.mp (happlicable.inRange e he)
  · exact happlicable.disjoint.imp Edit.overlaps_eq_false_iff.mp
  · exact ⟨_, Edit.apply_eq_weave happlicable⟩

end Plan

end CodeGraft
