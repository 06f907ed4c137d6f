import CodeGraft.Apply.Batch
import CodeGraft.Proofs.Placement

/-!
# What new code leaves alone

A callable is unrelated to new code that does not know its name and knows no callable around it or
in it. As long as names are matched, unrelated callables stay as they are. When no name is shared,
the new code takes the place of a section or of the whole text, whatever stands there.
-/

namespace CodeGraft

open Text

namespace Edit

theorem apply_whole (text newText : Text) :
    apply text [⟨0, text.length, newText⟩] = .ok newText := by
  have h := applicable_singleton newText (Nat.zero_le text.length) (Nat.le_refl _)
  change Applicable text [⟨0, text.length, newText⟩] at h
  rw [apply_eq_weave h, sorted, List.mergeSort_singleton]
  simp [gaps, weave, Text.slice]

end Edit

namespace Index

/-- A span of an index that the names of another index do not touch: it has none of them, and it
overlaps no span that has. -/
structure Unrelated (existing new : Index) (s : Span) : Prop where
  mem : s ∈ existing.spans
  unnamed : ∀ t ∈ new.spans, t.name ≠ s.name
  disjoint : ∀ old ∈ existing.spans, (∃ t ∈ new.spans, t.name = old.name) →
    s.overlaps old = false

end Index

namespace Plan

variable {existing newCode result : Text} {insertNew : Bool} {s : Span}

theorem keeps_of_free (hs : s.IsIn existing)
    (hresult : (Plan.of existing newCode insertNew).apply existing = .ok result)
    (hfree : ∀ e ∈ (Plan.of existing newCode insertNew).edits,
      ¬(e.start < s.stop ∧ s.start < e.stop)) : s.content <:+: result := by
  have hstart := hs.start_nonneg
  have hle := s.start_le_stop
  rw [hs.content_eq]
  refine Edit.slice_isInfix_of_apply (of_applicable existing newCode insertNew) hresult ?_
  intro e he
  have hno := hfree e he
  omega

/-- While names are matched, every edit stays in the range of a known name, so it cannot reach an
unrelated span. -/
theorem keeps_unrelated (hshares : (Index.of existing).SharesName (Index.of newCode))
    (hs : (Index.of existing).Unrelated (Index.of newCode) s)
    (hresult : (Plan.of existing newCode insertNew).apply existing = .ok result) :
    s.content <:+: result := by
  refine keeps_of_free (Index.isIn_of_mem hs.mem) hresult ?_
  intro e he hoverlap
  have hm := NameMatch.of_sound insertNew (Index.of existing) (Index.of newCode)
  rw [(of_sharesName hshares).2] at he
  cases hfirst : (NameMatch.of insertNew (Index.of existing) (Index.of newCode)).first? with
  | none =>
    rw [NameMatch.edits_eq_nil_iff.mpr (NameMatch.first?_eq_none_iff.mp hfirst)] at he
    cases he
  | some first =>
    rw [NameMatch.edits_eq_sorted hfirst, Edit.mem_sorted] at he
    obtain ⟨q, hq, hstart, hle, hstop⟩ := hm.placed_within hfirst he
    obtain ⟨hold, hname⟩ := Index.find?_eq_some_iff.mp (hm.replaced_found q hq)
    have hnew := hm.replaced_sublist.subset (List.mem_map_of_mem hq)
    have hdisjoint := hs.disjoint q.2 hold ⟨q.1, Index.mem_inOrder.mp hnew, hname.symm⟩
    rw [Span.overlaps_eq_false_iff] at hdisjoint
    omega

theorem keeps_outside_section {sec : Sectioned}
    (hshares : ¬(Index.of existing).SharesName (Index.of newCode))
    (hsection : sectionFor? existing newCode = some sec) (hs : s ∈ (Index.of existing).spans)
    (hout : ¬(sec.start < s.stop ∧ s.start < sec.stop))
    (hresult : (Plan.of existing newCode insertNew).apply existing = .ok result) :
    s.content <:+: result := by
  refine keeps_of_free (Index.isIn_of_mem hs) hresult ?_
  intro e he
  rcases of_not_sharesName insertNew hshares with ⟨sec', hsec', -, hedits⟩ | ⟨hnone, -, -⟩
  · obtain rfl : sec' = sec := Option.some.inj (hsec'.symm.trans hsection)
    rw [hedits] at he
    rw [List.mem_singleton.mp he]
    exact hout
  · rw [hnone] at hsection
    cases hsection

theorem apply_eq_newCode (insertNew : Bool)
    (hshares : ¬(Index.of existing).SharesName (Index.of newCode))
    (hsection : ∀ sec ∈ sectionFor? existing newCode,
      sec.start = 0 ∧ sec.stop = existing.length) :
    (Plan.of existing newCode insertNew).apply existing = .ok newCode := by
  have hedits : (Plan.of existing newCode insertNew).edits = [⟨0, existing.length, newCode⟩] := by
    rcases of_not_sharesName insertNew hshares with ⟨sec, hsec, -, hedits⟩ | ⟨-, -, hedits⟩
    · obtain ⟨hstart, hstop⟩ := hsection sec hsec
      rw [hedits, hstart, hstop]
      rfl
    · exact hedits
  rw [Plan.apply, hedits]
  exact Edit.apply_whole existing newCode

end Plan

theorem exists_revision_of_part (settings : Settings) {code : Text} (existing : Text)
    (hpart : extentOf code = .part) :
    ∃ revision, revise settings code existing = .ok revision ∧
      (Plan.of existing code settings.insertNew).apply existing = .ok revision.content := by
  have happly := Edit.apply_eq_weave (Plan.of_applicable existing code settings.insertNew)
  change (Plan.of existing code settings.insertNew).apply existing = .ok _ at happly
  simp only [revise, hpart, happly]
  exact ⟨_, rfl, rfl⟩

theorem exists_revision (settings : Settings) (code existing : Text) :
    ∃ revision, revise settings code existing = .ok revision := by
  cases hextent : extentOf code with
  | whole =>
    simp only [revise, hextent]
    exact ⟨_, rfl⟩
  | part =>
    obtain ⟨revision, hrevise, -⟩ := exists_revision_of_part settings existing hextent
    exact ⟨revision, hrevise⟩

/-- A part of a file always makes a revision. It keeps every unrelated callable if it shares a name
with the existing text, and every callable outside of the section if it takes the place of one;
otherwise it is all that is left. -/
theorem revise_keeps_unrelated (settings : Settings) {code : Text} (existing : Text)
    (hpart : extentOf code = .part) :
    ∃ revision, revise settings code existing = .ok revision ∧
      ((Index.of existing).SharesName (Index.of code) →
        ∀ s, (Index.of existing).Unrelated (Index.of code) s → s.content <:+: revision.content) ∧
      (¬(Index.of existing).SharesName (Index.of code) →
        ∀ sec, sectionFor? existing code = some sec →
          ∀ s ∈ (Index.of existing).spans, ¬(sec.start < s.stop ∧ s.start < sec.stop) →
            s.content <:+: revision.content) ∧
      (¬(Index.of existing).SharesName (Index.of code) → sectionFor? existing code = none →
        revision.content = code) := by
  obtain ⟨revision, hrevise, happly⟩ := exists_revision_of_part settings existing hpart
  refine ⟨revision, hrevise, ?_, ?_, ?_⟩
  · intro hshares s hs
    exact Plan.keeps_unrelated hshares hs happly
  · intro hshares sec hsection s hs hout
    exact Plan.keeps_outside_section hshares hsection hs hout happly
  · intro hshares hsection
    have hnothing := Plan.apply_eq_newCode settings.insertNew hshares (by simp [hsection])
    exact Except.ok.inj (happly.symm.trans hnothing)

/-- New code for `f` says nothing of `g`, so `g` stays. -/
theorem revise_keeps_unrelated_of_two :
    extentOf "function f(){1}" = .part ∧
      ∃ revision, revise {} "function f(){1}" "function f(){}\nfunction g(){}" = .ok revision ∧
        "function g(){}".toList <:+: revision.content := by
  have hpart : extentOf "function f(){1}" = .part := by decide +kernel
  have hold : (Index.of "function f(){}\nfunction g(){}").spans =
      [⟨"f", "function f(){}", 0⟩, ⟨"g", "function g(){}", 15⟩] := by decide +kernel
  have hnew : (Index.of "function f(){1}").spans = [⟨"f", "function f(){1}", 0⟩] := by
    decide +kernel
  have hshares : (Index.of "function f(){}\nfunction g(){}").SharesName
      (Index.of "function f(){1}") := by
    rw [Index.SharesName, hold, hnew]
    decide +kernel
  have hunrelated : (Index.of "function f(){}\nfunction g(){}").Unrelated
      (Index.of "function f(){1}") ⟨"g", "function g(){}", 15⟩ := by
    refine ⟨?_, ?_, ?_⟩
    · rw [hold]
      decide +kernel
    · rw [hnew]
      decide +kernel
    · rw [hold, hnew]
      decide +kernel
  obtain ⟨revision, hrevise, hkeeps, -⟩ :=
    revise_keeps_unrelated {} "function f(){}\nfunction g(){}" hpart
  exact ⟨hpart, revision, hrevise, hkeeps hshares _ hunrelated⟩

/-- When the two texts hold one callable each, of different names, the existing one is lost unless
the new code happens to hold it, or only a part of the existing text is replaced. -/
theorem exists_lost_of_one_each (settings : Settings) {existing code : Text} {s t : Span}
    (hpart : extentOf code = .part) (hold : (Index.of existing).spans = [s])
    (hnew : (Index.of code).spans = [t]) (hne : t.name ≠ s.name)
    (hsection : ∀ sec ∈ sectionFor? existing code, sec.start = 0 ∧ sec.stop = existing.length)
    (hcode : ¬ s.content <:+: code) :
    ∃ revision, revise settings code existing = .ok revision ∧
      (Index.of existing).Unrelated (Index.of code) s ∧ ¬ s.content <:+: revision.content := by
  have hshares : ¬(Index.of existing).SharesName (Index.of code) := by
    simp [Index.SharesName, hold, hnew, hne.symm]
  have hunrelated : (Index.of existing).Unrelated (Index.of code) s := by
    refine ⟨?_, ?_, ?_⟩
    · simp [hold]
    · simp [hnew, hne]
    · simp [hold, hnew, hne]
  obtain ⟨revision, hrevise, happly⟩ := exists_revision_of_part settings existing hpart
  have hnothing := Plan.apply_eq_newCode settings.insertNew hshares hsection
  have hcontent : revision.content = code := Except.ok.inj (happly.symm.trans hnothing)
  exact ⟨revision, hrevise, hunrelated, by rwa [hcontent]⟩

/-- Without a shared name an unrelated callable can be lost. The new code may take the place of the
whole text, and even a section may hold callables that the new code does not know. -/
theorem revise_loses_unrelated :
    (¬ ∀ (settings : Settings) (code existing : Text), extentOf code = .part →
      ∀ revision, revise settings code existing = .ok revision →
        ∀ s, (Index.of existing).Unrelated (Index.of code) s →
          s.content <:+: revision.content) ∧
    ¬ ∀ (settings : Settings) (code existing : Text), extentOf code = .part →
      (sectionFor? existing code).isSome →
        ∀ revision, revise settings code existing = .ok revision →
          ∀ s, (Index.of existing).Unrelated (Index.of code) s →
            s.content <:+: revision.content := by
  constructor
  · intro hkeeps
    have hpart : extentOf "function g(){}" = .part := by decide +kernel
    have hold : (Index.of "function f(){}").spans = [⟨"f", "function f(){}", 0⟩] := by
      decide +kernel
    have hnew : (Index.of "function g(){}").spans = [⟨"g", "function g(){}", 0⟩] := by
      decide +kernel
    obtain ⟨revision, hrevise, hunrelated, hlost⟩ := exists_lost_of_one_each {} hpart hold hnew
      (by decide +kernel) (by decide +kernel) (by decide +kernel)
    exact hlost (hkeeps {} _ _ hpart revision hrevise _ hunrelated)
  · intro hkeeps
    have hpart : extentOf "class B { b(){} }" = .part := by decide +kernel
    have hold : (Index.of "class B { a(){} }").spans = [⟨"a", "a(){}", 10⟩] := by decide +kernel
    have hnew : (Index.of "class B { b(){} }").spans = [⟨"b", "b(){}", 10⟩] := by decide +kernel
    have hsome : (sectionFor? "class B { a(){} }" "class B { b(){} }").isSome := by
      decide +kernel
    obtain ⟨revision, hrevise, hunrelated, hlost⟩ := exists_lost_of_one_each {} hpart hold hnew
      (by decide +kernel) (by decide +kernel) (by decide +kernel)
    exact hlost (hkeeps {} _ _ hpart hsome revision hrevise _ hunrelated)

end CodeGraft
