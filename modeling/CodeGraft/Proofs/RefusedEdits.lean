import CodeGraft.Edit.NameMatch
import CodeGraft.Proofs.Splice

/-!
# Edits that are refused

A list of edits is refused for one that leaves the text and, if there is none, for two that overlap,
wherever they stand in the list. While edits are applied, only the offset is known that the last one
has reached. As they are sorted, that is enough: where each starts behind the one before it, no two
of them overlap.
-/

namespace CodeGraft

theorem Span.overlaps_eq_overlaps (s t : Span) (replacement replacement' : Text) :
    s.overlaps t =
      (⟨s.start, s.stop, replacement⟩ : Edit).overlaps ⟨t.start, t.stop, replacement'⟩ := by
  simp [Span.overlaps, Edit.overlaps]

namespace Edit

variable {text result : Text} {reached : Nat} {edits : List Edit}

theorem overlaps_eq_false_of_le {a b : Edit} (h : a.stop ≤ b.start) : a.overlaps b = false := by
  rw [overlaps_eq_false_iff]
  omega

theorem InOrder.of_spliceFrom (hin : ∀ e ∈ edits, e.inRange text.length = true)
    (h : spliceFrom text reached edits = .ok result) : InOrder text reached edits := by
  induction edits generalizing reached result with
  | nil => exact ⟨hin, by simp, .nil⟩
  | cons e edits ih =>
    obtain ⟨he, hrest⟩ := List.forall_mem_cons.mp hin
    have hrange := inRange_iff.mp he
    rw [spliceFrom] at h
    split at h
    · cases h
    next hreached =>
      split at h
      next rest hspliced =>
        have htail := ih hrest hspliced
        have hpassed : ∀ a ∈ edits, e.stop ≤ a.start := by
          intro a ha
          have hle := htail.reached_le a ha
          omega
        have hreach : ∀ a ∈ e :: edits, (reached : Int) ≤ a.start := by
          refine List.forall_mem_cons.mpr ⟨by omega, fun a ha => ?_⟩
          have hle := hpassed a ha
          omega
        exact ⟨hin, hreach, .cons hpassed htail.ordered⟩
      next => cases h

theorem spliceFrom_ne_outside (text : Text) (reached : Nat) (edits : List Edit) (start stop : Int)
    (length : Nat) : spliceFrom text reached edits ≠ .error (.outside start stop length) := by
  induction edits generalizing reached with
  | nil => simp [spliceFrom]
  | cons e edits ih =>
    rw [spliceFrom]
    split
    · simp
    · split
      · simp
      next error herror =>
        intro heq
        rw [Except.error.inj heq] at herror
        exact ih _ herror

theorem apply_cases (text : Text) (edits : List Edit) :
    (∃ e ∈ edits, e.inRange text.length = false ∧
        apply text edits = .error (.outside e.start e.stop text.length)) ∨
      (∀ e ∈ edits, e.inRange text.length = true) ∧
        apply text edits = spliceFrom text 0 (sorted edits) := by
  cases hfind : edits.find? fun e => !e.inRange text.length with
  | some e =>
    have hout := List.find?_some hfind
    exact .inl ⟨e, List.mem_of_find?_eq_some hfind, by simpa using hout, by rw [apply, hfind]⟩
  | none => exact .inr ⟨by simpa using List.find?_eq_none.mp hfind, by rw [apply, hfind]⟩

theorem exists_apply_iff : (∃ result, apply text edits = .ok result) ↔ Applicable text edits := by
  constructor
  · rintro ⟨result, h⟩
    obtain ⟨e, -, -, heq⟩ | ⟨hin, heq⟩ := apply_cases text edits
    · rw [heq] at h
      cases h
    rw [heq] at h
    have hordered := InOrder.of_spliceFrom (fun e he => hin e (mem_sorted.mp he)) h
    have hsorted : Applicable text (sorted edits) :=
      ⟨hordered.inRange, hordered.ordered.imp overlaps_eq_false_of_le⟩
    exact hsorted.perm (sorted_perm edits).symm
  · intro h
    exact ⟨_, apply_eq_weave h⟩

theorem exists_outside_iff :
    (∃ start stop length, apply text edits = .error (.outside start stop length)) ↔
      ∃ e ∈ edits, e.inRange text.length = false := by
  obtain ⟨e, he, hout, heq⟩ | ⟨hin, heq⟩ := apply_cases text edits
  · exact ⟨fun _ => ⟨e, he, hout⟩, fun _ => ⟨_, _, _, heq⟩⟩
  · constructor
    · rintro ⟨start, stop, length, h⟩
      rw [heq] at h
      exact absurd h (spliceFrom_ne_outside _ _ _ _ _ _)
    · rintro ⟨e, he, hout⟩
      rw [hin e he] at hout
      cases hout

theorem exists_overlap_iff :
    (∃ start stop reached, apply text edits = .error (.overlap start stop reached)) ↔
      (∀ e ∈ edits, e.inRange text.length = true) ∧
        ¬ edits.Pairwise fun a b => a.overlaps b = false := by
  constructor
  · rintro ⟨start, stop, reached, h⟩
    obtain ⟨e, -, -, heq⟩ | ⟨hin, -⟩ := apply_cases text edits
    · rw [heq] at h
      cases h
    refine ⟨hin, fun hdisjoint => ?_⟩
    obtain ⟨result, hresult⟩ := exists_apply_iff.mpr ⟨hin, hdisjoint⟩
    rw [hresult] at h
    cases h
  · rintro ⟨hin, hoverlap⟩
    cases h : apply text edits with
    | ok result => exact absurd (exists_apply_iff.mp ⟨result, h⟩).disjoint hoverlap
    | error e =>
      cases e with
      | overlap start stop reached => exact ⟨start, stop, reached, rfl⟩
      | outside start stop length =>
        obtain ⟨a, ha, hout⟩ := exists_outside_iff.mp ⟨start, stop, length, h⟩
        rw [hin a ha] at hout
        cases hout

theorem not_pairwise_iff :
    (¬ edits.Pairwise fun a b : Edit => a.overlaps b = false) ↔
      ∃ (i j : Nat) (a b : Edit), i ≠ j ∧ edits[i]? = some a ∧ edits[j]? = some b ∧
        a.overlaps b = true := by
  rw [List.pairwise_iff_getElem]
  constructor
  · intro h
    simp only [Classical.not_forall] at h
    obtain ⟨i, j, hi, hj, hij, hover⟩ := h
    exact ⟨i, j, edits[i], edits[j], Nat.ne_of_lt hij, by simp, by simp, by simpa using hover⟩
  · rintro ⟨i, j, a, b, hij, ha, hb, hover⟩ hall
    obtain ⟨hi, rfl⟩ := List.getElem?_eq_some_iff.mp ha
    obtain ⟨hj, rfl⟩ := List.getElem?_eq_some_iff.mp hb
    rcases Nat.lt_or_gt_of_ne hij with hlt | hgt
    · rw [hall i j hi hj hlt] at hover
      cases hover
    · rw [overlaps_comm, hall j i hj hi hgt] at hover
      cases hover

/-- A list of edits is refused as going outside exactly if one of them leaves the text, and as
overlapping exactly if none does and two of them, at different positions of the list, overlap. It is
the same overlap that the spans of a plan are tested for. -/
theorem apply_refuses (text : Text) (edits : List Edit) :
    ((∃ start stop length, apply text edits = .error (.outside start stop length)) ↔
        ∃ e ∈ edits, ¬(0 ≤ e.start ∧ e.start ≤ e.stop ∧ e.stop ≤ text.length)) ∧
      ((∃ start stop reached, apply text edits = .error (.overlap start stop reached)) ↔
        (∀ e ∈ edits, 0 ≤ e.start ∧ e.start ≤ e.stop ∧ e.stop ≤ text.length) ∧
          ∃ (i j : Nat) (a b : Edit), i ≠ j ∧ edits[i]? = some a ∧ edits[j]? = some b ∧
            a.overlaps b = true) ∧
      ∀ (s t : Span) (replacement replacement' : Text), s.overlaps t =
        (⟨s.start, s.stop, replacement⟩ : Edit).overlaps ⟨t.start, t.stop, replacement'⟩ := by
  refine ⟨?_, ?_, Span.overlaps_eq_overlaps⟩
  · simp only [← inRange_iff, Bool.not_eq_true]
    exact exists_outside_iff
  · simp only [← inRange_iff, ← not_pairwise_iff]
    exact exists_overlap_iff

end Edit

end CodeGraft
