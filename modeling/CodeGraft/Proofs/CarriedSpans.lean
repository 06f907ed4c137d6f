import CodeGraft.Proofs.Insertions
import CodeGraft.Proofs.Openings
import Mathlib.Data.Finset.Max

/-!
# What a match with insertions carries

Around every callable of the new code there is an outermost one. Of those with a new name it is
inserted, and of those with a known name it is written over the existing one, unless that overlaps
another replacement. So what a match with insertions loses lies in a callable that was left out.
-/

namespace CodeGraft

open Text

namespace Index

theorem exists_outermost {source : Text} {s : Span} (hs : s ∈ (Index.of source).spans) :
    ∃ t, Outermost source t ∧ s.Within t := by
  let around := (Index.of source).spans.toFinset.filter (s.Within ·)
  have hself : s ∈ around := by
    rw [Finset.mem_filter, List.mem_toFinset]
    exact ⟨hs, Int.le_refl _, Int.le_refl _⟩
  obtain ⟨t, ht, hmin⟩ := around.exists_min_image Span.start ⟨s, hself⟩
  rw [Finset.mem_filter, List.mem_toFinset] at ht
  refine ⟨t, ⟨ht.1, ?_⟩, ht.2⟩
  intro u hu hne hwithin
  have haround : u ∈ around := by
    rw [Finset.mem_filter, List.mem_toFinset]
    exact ⟨hu, Int.le_trans hwithin.1 ht.2.1, Int.le_trans ht.2.2 hwithin.2⟩
  have hstart := Int.le_antisymm hwithin.1 (hmin u haround)
  exact hne (Index.eq_of_start_eq hu ht.1 hstart)

theorem inOrder_eq_of_perm {source : Text} {ordered : List Span}
    (hperm : (Index.of source).spans.Perm ordered)
    (hordered : ordered.Pairwise fun a b => a.precedes b = true) :
    (Index.of source).inOrder = ordered := by
  refine ((inOrder_perm _).trans hperm).eq_of_pairwise ?_ (inOrder_pairwise _) hordered
  intro a b ha hb hab hba
  rw [Span.precedes_iff] at hab hba
  exact Index.eq_of_start_eq (mem_inOrder.mp ha) (hperm.mem_iff.mpr hb) (by omega)

end Index

namespace NameMatch

variable {existing newCode : Text} {s t : Span}

/-- A span of the new code has the name of an existing span, but is not written over it. -/
def LeftOut (existing : Text) (pairs : List (Span × Span)) (t : Span) : Prop :=
  ∃ old ∈ (Index.of existing).spans, old.name = t.name ∧ (t, old) ∉ pairs

theorem mem_replaced_iff (insertNew : Bool) :
    t ∈ (NameMatch.of insertNew (Index.of existing) (Index.of newCode)).replaced.map (·.1) ↔
      t ∈ (Index.of newCode).spans ∧ ∃ old ∈ (Index.of existing).spans, old.name = t.name ∧
        (t, old) ∈ (NameMatch.of insertNew (Index.of existing) (Index.of newCode)).replaced := by
  have hpicks := of_picks insertNew existing newCode
  constructor
  · intro h
    obtain ⟨⟨new, old⟩, hp, rfl⟩ := List.mem_map.mp h
    obtain ⟨hnew, hold, hname⟩ := hpicks.shared _ hp
    exact ⟨hnew, old, hold, hname.symm, hp⟩
  · intro h
    obtain ⟨-, old, -, -, hp⟩ := h
    exact List.mem_map_of_mem hp

theorem mem_added_iff :
    t ∈ (NameMatch.of true (Index.of existing) (Index.of newCode)).added.map (·.1) ↔
      Index.Outermost newCode t ∧ ∀ old ∈ (Index.of existing).spans, old.name ≠ t.name := by
  rw [of_eq_taken, added_taken, mem_inserted_iff]

/-- A span of a known name is carried if it is not left out, and one of a new name if it is an
outermost one. -/
theorem mem_carried_iff :
    let m := NameMatch.of true (Index.of existing) (Index.of newCode)
    t ∈ m.carried ↔ t ∈ (Index.of newCode).spans ∧ ¬LeftOut existing m.replaced t ∧
      ((∃ old ∈ (Index.of existing).spans, old.name = t.name) ∨ Index.Outermost newCode t) := by
  intro m
  rw [carried, List.mem_append, mem_replaced_iff, mem_added_iff]
  constructor
  · intro h
    rcases h with ⟨hnew, old, hold, hname, hp⟩ | ⟨houter, hnone⟩
    · refine ⟨hnew, ?_, Or.inl ⟨old, hold, hname⟩⟩
      intro hleft
      obtain ⟨old', hold', hname', hnot⟩ := hleft
      rw [Index.eq_of_name_eq hold' hold (hname'.trans hname.symm)] at hnot
      exact hnot hp
    · refine ⟨houter.mem, ?_, Or.inr houter⟩
      intro hleft
      obtain ⟨old, hold, hname, -⟩ := hleft
      exact hnone old hold hname
  · intro h
    obtain ⟨hnew, hleft, hcarried⟩ := h
    by_cases hknown : ∃ old ∈ (Index.of existing).spans, old.name = t.name
    · obtain ⟨old, hold, hname⟩ := hknown
      have hp : (t, old) ∈ m.replaced := by
        by_contra hnot
        exact hleft ⟨old, hold, hname, hnot⟩
      exact Or.inl ⟨hnew, old, hold, hname, hp⟩
    · refine Or.inr ⟨hcarried.resolve_left hknown, ?_⟩
      intro old hold hname
      exact hknown ⟨old, hold, hname⟩

theorem exists_edit_of_carried (existing newCode : Text) (first : Span) {m : NameMatch}
    (h : t ∈ m.carried) :
    ∃ e ∈ m.placed existing newCode first, ∃ front indent back,
      e.replacement =
        front ++ reindent t.content indent (indentAt newCode t.start.toNat) ++ back := by
  rcases List.mem_append.mp h with h | h
  · obtain ⟨p, hp, rfl⟩ := List.mem_map.mp h
    refine ⟨_, List.mem_append_left _ (List.mem_map_of_mem hp), [],
      indentAt existing p.2.start.toNat, [], ?_⟩
    simp [replacement]
  · obtain ⟨⟨s, anchor⟩, hp, rfl⟩ := List.mem_map.mp h
    have hplaced := List.mem_append_right (m.replaced.map (replacement existing newCode))
      (List.mem_map_of_mem (f := insertion existing newCode first) hp)
    cases anchor with
    | none =>
      refine ⟨_, hplaced, [], indentAt existing first.start.toNat,
        "\n\n".toList ++ indentAt existing first.start.toNat, ?_⟩
      simp [insertion]
    | some old =>
      refine ⟨_, hplaced, "\n\n".toList ++ indentAt existing old.start.toNat,
        indentAt existing old.start.toNat, [], ?_⟩
      simp [insertion]

end NameMatch

namespace Plan

/-- What a plan with insertions carries of the spans whose names are new. Its edits are those of the
carried spans. A span of a new name lies in an outermost span of the new code. It is carried exactly
if one of the spans around it is of a known name or an outermost one, and is not left out. So if it
lies in no span that is left out, it is carried. -/
theorem of_insertNew_carries {existing newCode : Text}
    (htier : (Plan.of existing newCode true).tier = .nameMatch) :
    let m := NameMatch.of true (Index.of existing) (Index.of newCode)
    NameMatch.Picks existing newCode m.replaced ∧
    (∃ first, m.first? = some first ∧
      (Plan.of existing newCode true).edits = Edit.sorted (m.placed existing newCode first)) ∧
    (∀ t ∈ m.carried, ∃ e ∈ (Plan.of existing newCode true).edits, ∃ front indent back,
      e.replacement =
        front ++ reindent t.content indent (indentAt newCode t.start.toNat) ++ back) ∧
    ∀ s ∈ (Index.of newCode).spans,
      (∀ old ∈ (Index.of existing).spans, old.name ≠ s.name) →
        (∃ t, Index.Outermost newCode t ∧ s.Within t) ∧
        ((∃ t ∈ m.carried, s.Within t) ↔ ∃ t ∈ (Index.of newCode).spans, s.Within t ∧
          ¬NameMatch.LeftOut existing m.replaced t ∧
            ((∃ old ∈ (Index.of existing).spans, old.name = t.name) ∨
              Index.Outermost newCode t)) ∧
        ((∀ t ∈ (Index.of newCode).spans, s.Within t →
          ¬NameMatch.LeftOut existing m.replaced t) → ∃ t ∈ m.carried, s.Within t) := by
  intro m
  have hshares := (of_tier_iff existing newCode true).mp htier
  obtain ⟨first, hfirst⟩ : ∃ first, m.first? = some first := NameMatch.exists_first? true hshares
  have hedits : (Plan.of existing newCode true).edits =
      Edit.sorted (m.placed existing newCode first) := by
    rw [(of_sharesName hshares).2, NameMatch.edits_eq_sorted hfirst]
  refine ⟨NameMatch.of_picks true existing newCode, ⟨first, hfirst, hedits⟩, ?_, ?_⟩
  · intro t ht
    obtain ⟨e, he, hcarries⟩ := NameMatch.exists_edit_of_carried existing newCode first ht
    refine ⟨e, ?_, hcarries⟩
    rw [hedits]
    exact (Edit.sorted_perm _).mem_iff.mpr he
  · intro s hs hnew
    obtain ⟨t, houter, hwithin⟩ := Index.exists_outermost hs
    refine ⟨⟨t, houter, hwithin⟩, ?_, ?_⟩
    · constructor
      · intro h
        obtain ⟨u, hu, hsu⟩ := h
        obtain ⟨hmem, hleft, hcarried⟩ := NameMatch.mem_carried_iff.mp hu
        exact ⟨u, hmem, hsu, hleft, hcarried⟩
      · intro h
        obtain ⟨u, hmem, hsu, hleft, hcarried⟩ := h
        exact ⟨u, NameMatch.mem_carried_iff.mpr ⟨hmem, hleft, hcarried⟩, hsu⟩
    · intro hkept
      have hcarried := NameMatch.mem_carried_iff.mpr
        ⟨houter.mem, hkept t houter.mem hwithin, Or.inr houter⟩
      exact ⟨t, hcarried, hwithin⟩

/-- An inserted callable takes the one inside it along. -/
theorem of_insertNew_carries_nested :
    let existing : Text := "function a(){}"
    let newCode : Text := "function a(){1}\nfunction n(){ const h = function(){} }"
    let nested : Span := ⟨"h", "const h = function(){}", 30⟩
    (Plan.of existing newCode true).tier = .nameMatch ∧ nested ∈ (Index.of newCode).spans ∧
      ∃ t ∈ (NameMatch.of true (Index.of existing) (Index.of newCode)).carried,
        nested.Within t := by
  intro existing newCode nested
  have hold : (Index.of existing).spans = [⟨"a", "function a(){}", 0⟩] := by decide +kernel
  have hnew : (Index.of newCode).spans = [⟨"a", "function a(){1}", 0⟩,
      ⟨"n", "function n(){ const h = function(){} }", 16⟩, nested] := by decide +kernel
  obtain ⟨htier, -⟩ := of_known_spans true hold hnew (by decide +kernel) (by decide +kernel)
  have hmem : nested ∈ (Index.of newCode).spans := by
    rw [hnew]
    decide +kernel
  have hunknown : ∀ old ∈ (Index.of existing).spans, old.name ≠ nested.name := by
    rw [hold]
    decide +kernel
  obtain ⟨-, -, -, hcarries⟩ := of_insertNew_carries htier
  obtain ⟨-, -, hkept⟩ := hcarries nested hmem hunknown
  refine ⟨htier, hmem, hkept ?_⟩
  intro t ht hwithin hleft
  obtain ⟨old, hmem, hname, -⟩ := hleft
  have hapart : ∀ old ∈ (Index.of existing).spans, ∀ t ∈ (Index.of newCode).spans,
      nested.Within t → old.name ≠ t.name := by
    rw [hold, hnew]
    decide +kernel
  exact hapart old hmem t ht hwithin hname

/-- A new callable is lost with the one around it, here with the new `o`: what that would be written
over holds the existing `h`, which has been replaced before. -/
theorem not_of_insertNew_carries :
    ¬ ∀ existing newCode : Text, (Plan.of existing newCode true).tier = .nameMatch →
      ∀ s ∈ (Index.of newCode).spans, (∀ old ∈ (Index.of existing).spans, old.name ≠ s.name) →
        ∃ t ∈ (NameMatch.of true (Index.of existing) (Index.of newCode)).carried,
          s.Within t := by
  intro hcarries
  have hold : (Index.of "function o(){ const h = function(){} }").spans =
      [⟨"o", "function o(){ const h = function(){} }", 0⟩,
        ⟨"h", "const h = function(){}", 14⟩] := by decide +kernel
  have hnew : (Index.of "const h = function(){1}\nfunction o(){ const n = function(){} }").spans =
      [⟨"o", "function o(){ const n = function(){} }", 24⟩, ⟨"h", "const h = function(){1}", 0⟩,
        ⟨"n", "const n = function(){}", 38⟩] := by decide +kernel
  have hinOrder := Index.inOrder_eq_of_perm (hnew ▸ List.Perm.swap _ _ _) (by decide +kernel)
  have hshares : (Index.of "function o(){ const h = function(){} }").SharesName
      (Index.of "const h = function(){1}\nfunction o(){ const n = function(){} }") := by
    rw [Index.SharesName, hold, hnew]
    decide +kernel
  have hcarried := hcarries _ _ ((of_tier_iff _ _ true).mpr hshares)
    ⟨"n", "const n = function(){}", 38⟩ (by rw [hnew]; decide +kernel)
    (by rw [hold]; decide +kernel)
  rw [NameMatch.of_eq_taken, hinOrder] at hcarried
  revert hcarried
  decide +kernel

end Plan

end CodeGraft
