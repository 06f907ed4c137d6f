import CodeGraft.Edit.NameMatch
import CodeGraft.Proofs.Spans
import CodeGraft.Proofs.Splice
import Mathlib.Data.List.Pairwise

/-!
# Matching callables by name

The new spans are taken up one by one, in the order of their text. What one step can do is said
once, by `Takes`; from it follow the invariant of a whole run, `Sound`, and which shared names a run
leaves out. The edits that come of a sound match can be applied together.
-/

namespace CodeGraft

namespace Span

theorem overlaps_eq_false_iff {a b : Span} :
    a.overlaps b = false ↔ ¬(a.start < b.stop ∧ b.start < a.stop) := by
  simp [overlaps]

theorem precedes_iff {a b : Span} :
    a.precedes b = true ↔ a.start < b.start ∨ (a.start = b.start ∧ b.stop ≤ a.stop) := by
  simp [precedes]

theorem precedes_trans (a b c : Span) (hab : a.precedes b = true) (hbc : b.precedes c = true) :
    a.precedes c = true := by
  rw [precedes_iff] at *
  omega

theorem precedes_total (a b : Span) : (a.precedes b || b.precedes a) = true := by
  rw [Bool.or_eq_true, precedes_iff, precedes_iff]
  omega

end Span

namespace Index

/-- The spans in the order in which they are taken up: by start, and the longest first of those with
one start. -/
def inOrder (index : Index) : List Span := index.spans.mergeSort Span.precedes

theorem inOrder_perm (index : Index) : index.inOrder.Perm index.spans :=
  List.mergeSort_perm index.spans Span.precedes

theorem inOrder_pairwise (index : Index) :
    index.inOrder.Pairwise fun a b => a.precedes b = true :=
  List.pairwise_mergeSort Span.precedes_trans Span.precedes_total index.spans

theorem mem_inOrder {index : Index} {s : Span} : s ∈ index.inOrder ↔ s ∈ index.spans :=
  (inOrder_perm index).mem_iff

theorem nodup_names_inOrder (source : Text) :
    ((Index.of source).inOrder.map (·.name)).Nodup :=
  ((inOrder_perm _).map _).nodup_iff.mpr (nodup_names source)

theorem nodup_inOrder (source : Text) : (Index.of source).inOrder.Nodup :=
  List.Nodup.of_map _ (nodup_names_inOrder source)

end Index

namespace NameMatch

variable {insertNew : Bool} {existing : Index} {all seen : List Span} {m m' : NameMatch} {s : Span}

/-- What becomes of a match when the new span `s` is taken up. -/
inductive Takes (insertNew : Bool) (existing : Index) (all : List Span) (m : NameMatch) (s : Span) :
    NameMatch → Prop where
  | replaces (old : Span) (hfind : existing.find? s.name = some old)
      (hfree : ∀ p ∈ m.replaced, old.overlaps p.2 = false) :
      Takes insertNew existing all m s { m with replaced := m.replaced ++ [(s, old)] }
  | skips (old : Span) (hfind : existing.find? s.name = some old)
      (hblocked : ∃ p ∈ m.replaced, old.overlaps p.2 = true) :
      Takes insertNew existing all m s { m with notes := m.notes ++ [.skipped s.name] }
  | adds (hfind : existing.find? s.name = none) (hinsert : insertNew = true)
      (hnested : s.isNestedIn all = false) :
      Takes insertNew existing all m s { m with added := m.added ++ [(s, m.anchor?)] }
  | drops (hfind : existing.find? s.name = none)
      (hdrop : insertNew = true → s.isNestedIn all = true) : Takes insertNew existing all m s m

theorem addSpan_takes (insertNew : Bool) (existing : Index) (all : List Span) (m : NameMatch)
    (s : Span) : Takes insertNew existing all m s (addSpan insertNew existing all m s) := by
  unfold addSpan
  cases hfind : existing.find? s.name with
  | none =>
    by_cases hadd : (insertNew && !s.isNestedIn all) = true
    · simp only [if_pos hadd]
      rw [Bool.and_eq_true, Bool.not_eq_true'] at hadd
      exact .adds hfind hadd.1 hadd.2
    · simp only [if_neg hadd]
      refine .drops hfind ?_
      intro hinsert
      simpa [hinsert] using hadd
  | some old =>
    by_cases hblocked : m.replaced.any (old.overlaps ·.2) = true
    · simp only [if_pos hblocked]
      exact .skips old hfind (List.any_eq_true.mp hblocked)
    · simp only [if_neg hblocked]
      refine .replaces old hfind ?_
      intro p hp
      rw [← Bool.not_eq_true]
      exact fun hoverlap => hblocked (List.any_eq_true.mpr ⟨p, hp, hoverlap⟩)

theorem exists_of_anchor? {old : Span} (h : m.anchor? = some old) :
    ∃ p ∈ m.replaced, p.2 = old := by
  obtain ⟨p, hp, rfl⟩ := Option.map_eq_some_iff.mp h
  exact ⟨p, List.mem_of_getLast? hp, rfl⟩

/-- The match after some new spans have been taken up, from none on. -/
def taken (insertNew : Bool) (existing : Index) (all spans : List Span) : NameMatch :=
  spans.foldl (addSpan insertNew existing all) {}

theorem of_eq_taken (insertNew : Bool) (existing new : Index) :
    NameMatch.of insertNew existing new = taken insertNew existing new.inOrder new.inOrder := rfl

theorem taken_append (insertNew : Bool) (existing : Index) (all spans more : List Span) :
    taken insertNew existing all (spans ++ more) =
      more.foldl (addSpan insertNew existing all) (taken insertNew existing all spans) :=
  List.foldl_append

/-- What holds of a match when the spans `seen` have been taken up. -/
structure Sound (insertNew : Bool) (existing : Index) (all seen : List Span) (m : NameMatch) :
    Prop where
  replaced_found : ∀ p ∈ m.replaced, existing.find? p.1.name = some p.2
  replaced_sublist : (m.replaced.map (·.1)).Sublist seen
  replaced_disjoint : m.replaced.Pairwise fun p q => p.2.overlaps q.2 = false
  added_new : ∀ p ∈ m.added,
    insertNew = true ∧ existing.find? p.1.name = none ∧ p.1.isNestedIn all = false
  added_sublist : (m.added.map (·.1)).Sublist seen
  added_anchor : ∀ p ∈ m.added, ∀ old, p.2 = some old → ∃ q ∈ m.replaced, q.2 = old

theorem Sound.nil : Sound insertNew existing all [] {} :=
  ⟨by simp, by simp, by simp, by simp, by simp, by simp⟩

theorem Takes.sound (h : Takes insertNew existing all m s m')
    (hm : Sound insertNew existing all seen m) :
    Sound insertNew existing all (seen ++ [s]) m' := by
  have hadded := hm.added_sublist.trans (List.sublist_append_left seen [s])
  have hreplaced := hm.replaced_sublist.trans (List.sublist_append_left seen [s])
  cases h with
  | replaces old hfind hfree =>
    refine ⟨?_, ?_, ?_, hm.added_new, hadded, ?_⟩
    · intro p hp
      rcases List.mem_append.mp hp with hp | hp
      · exact hm.replaced_found p hp
      · rw [List.mem_singleton.mp hp]
        exact hfind
    · rw [List.map_append]
      exact hm.replaced_sublist.append (List.Sublist.refl [s])
    · refine List.pairwise_append.mpr ⟨hm.replaced_disjoint, List.pairwise_singleton _ _, ?_⟩
      intro p hp q hq
      rw [List.mem_singleton.mp hq, Span.overlaps_comm]
      exact hfree p hp
    · intro p hp o ho
      obtain ⟨q, hq, hqo⟩ := hm.added_anchor p hp o ho
      exact ⟨q, List.mem_append_left _ hq, hqo⟩
  | skips old hfind hblocked =>
    exact ⟨hm.replaced_found, hreplaced, hm.replaced_disjoint, hm.added_new, hadded,
      hm.added_anchor⟩
  | adds hfind hinsert hnested =>
    refine ⟨hm.replaced_found, hreplaced, hm.replaced_disjoint, ?_, ?_, ?_⟩
    · intro p hp
      rcases List.mem_append.mp hp with hp | hp
      · exact hm.added_new p hp
      · rw [List.mem_singleton.mp hp]
        exact ⟨hinsert, hfind, hnested⟩
    · rw [List.map_append]
      exact hm.added_sublist.append (List.Sublist.refl [s])
    · intro p hp o ho
      rcases List.mem_append.mp hp with hp | hp
      · exact hm.added_anchor p hp o ho
      · rw [List.mem_singleton.mp hp] at ho
        exact exists_of_anchor? ho
  | drops hfind hdrop =>
    exact ⟨hm.replaced_found, hreplaced, hm.replaced_disjoint, hm.added_new, hadded,
      hm.added_anchor⟩

theorem Sound.foldl (hm : Sound insertNew existing all seen m) (spans : List Span) :
    Sound insertNew existing all (seen ++ spans)
      (spans.foldl (addSpan insertNew existing all) m) := by
  induction spans generalizing seen m with
  | nil => simpa using hm
  | cons s spans ih =>
    have hstep := (addSpan_takes insertNew existing all m s).sound hm
    simpa using ih hstep

theorem taken_sound (insertNew : Bool) (existing : Index) (all spans : List Span) :
    Sound insertNew existing all spans (taken insertNew existing all spans) :=
  Sound.nil.foldl spans

theorem of_sound (insertNew : Bool) (existing new : Index) :
    Sound insertNew existing new.inOrder new.inOrder (NameMatch.of insertNew existing new) :=
  taken_sound insertNew existing new.inOrder new.inOrder

theorem Sound.disjoint_or_eq (hm : Sound insertNew existing all seen m) {p q : Span × Span}
    (hp : p ∈ m.replaced) (hq : q ∈ m.replaced) : p = q ∨ p.2.overlaps q.2 = false := by
  have hsymm : Std.Symm fun p q : Span × Span => p.2.overlaps q.2 = false :=
    ⟨fun p q h => by rwa [Span.overlaps_comm]⟩
  by_cases hpq : p = q
  · exact Or.inl hpq
  · exact Or.inr (hm.replaced_disjoint.forall hp hq hpq)

/-! ### Which shared names are left out -/

theorem Takes.replaced_append (h : Takes insertNew existing all m s m') :
    ∃ later, m'.replaced = m.replaced ++ later ∧ ∀ p ∈ later, p.1 = s := by
  cases h with
  | replaces old hfind hfree => exact ⟨[(s, old)], rfl, by simp⟩
  | skips old hfind hblocked => exact ⟨[], by simp, by simp⟩
  | adds hfind hinsert hnested => exact ⟨[], by simp, by simp⟩
  | drops hfind hdrop => exact ⟨[], by simp, by simp⟩

theorem foldl_replaced_append (insertNew : Bool) (existing : Index) (all : List Span)
    (m : NameMatch) (spans : List Span) :
    ∃ later, (spans.foldl (addSpan insertNew existing all) m).replaced = m.replaced ++ later ∧
      ∀ p ∈ later, p.1 ∈ spans := by
  induction spans generalizing m with
  | nil => exact ⟨[], by simp, by simp⟩
  | cons s spans ih =>
    obtain ⟨first, hfirst, hmem⟩ := (addSpan_takes insertNew existing all m s).replaced_append
    obtain ⟨later, hlater, hmem'⟩ := ih (addSpan insertNew existing all m s)
    refine ⟨first ++ later, ?_, ?_⟩
    · rw [List.foldl_cons, hlater, hfirst, List.append_assoc]
    · intro p hp
      rcases List.mem_append.mp hp with hp | hp
      · rw [hmem p hp]
        exact List.mem_cons_self ..
      · exact List.mem_cons_of_mem _ (hmem' p hp)

/-- When a run has come to the end of `spans`, it has replaced what the whole run replaces with
these spans. -/
theorem mem_taken_replaced_iff (insertNew : Bool) (existing : Index) (all : List Span)
    {spans more : List Span} (hnew : ∀ t ∈ more, t ∉ spans) (p : Span × Span) :
    p ∈ (taken insertNew existing all spans).replaced ↔
      p ∈ (taken insertNew existing all (spans ++ more)).replaced ∧ p.1 ∈ spans := by
  obtain ⟨later, hlater, hmem⟩ :=
    foldl_replaced_append insertNew existing all (taken insertNew existing all spans) more
  rw [taken_append, hlater, List.mem_append]
  constructor
  · intro hp
    have hfirst : p.1 ∈ (taken insertNew existing all spans).replaced.map (·.1) :=
      List.mem_map_of_mem hp
    exact ⟨Or.inl hp, (taken_sound insertNew existing all spans).replaced_sublist.subset hfirst⟩
  · rintro ⟨hp | hp, hspans⟩
    · exact hp
    · exact absurd hspans (hnew p.1 (hmem p hp))

theorem Takes.not_mem_replaced_iff {old : Span} (h : Takes insertNew existing all m s m')
    (hnew : ∀ p ∈ m.replaced, p.1 ≠ s) (hfind : existing.find? s.name = some old) :
    (s, old) ∉ m'.replaced ↔ ∃ p ∈ m.replaced, p.2.overlaps old = true := by
  cases h with
  | replaces old' hfind' hfree =>
    obtain rfl : old' = old := Option.some.inj (hfind'.symm.trans hfind)
    constructor
    · intro hnot
      exact absurd (List.mem_append_right _ (List.mem_singleton_self _)) hnot
    · rintro ⟨p, hp, hoverlap⟩
      rw [Span.overlaps_comm, hfree p hp] at hoverlap
      cases hoverlap
  | skips old' hfind' hblocked =>
    obtain rfl : old' = old := Option.some.inj (hfind'.symm.trans hfind)
    obtain ⟨p, hp, hoverlap⟩ := hblocked
    constructor
    · intro _
      exact ⟨p, hp, by rwa [Span.overlaps_comm]⟩
    · intro _ hmem
      exact hnew _ hmem rfl
  | adds hfind' hinsert hnested =>
    rw [hfind'] at hfind
    cases hfind
  | drops hfind' hdrop =>
    rw [hfind'] at hfind
    cases hfind

/-- A shared name is left out exactly when its existing span overlaps that of a name taken up
before it and not left out itself. -/
theorem not_mem_replaced_iff (insertNew : Bool) {new : Index} {before behind : List Span}
    {old : Span} (horder : new.inOrder = before ++ s :: behind) (hnodup : new.inOrder.Nodup)
    (hfind : existing.find? s.name = some old) :
    (s, old) ∉ (NameMatch.of insertNew existing new).replaced ↔
      ∃ p ∈ (NameMatch.of insertNew existing new).replaced,
        p.1 ∈ before ∧ p.2.overlaps old = true := by
  have hsplit : new.inOrder = (before ++ [s]) ++ behind := by simp [horder]
  have hbefore : ∀ t ∈ s :: behind, t ∉ before := by
    intro t ht htb
    rw [horder, List.nodup_append] at hnodup
    exact hnodup.2.2 t htb t ht rfl
  have hbehind : ∀ t ∈ behind, t ∉ before ++ [s] := by
    intro t ht htb
    rw [hsplit, List.nodup_append] at hnodup
    exact hnodup.2.2 t htb t ht rfl
  -- taking up `s` decides: what is replaced before it stays replaced, and nothing behind it is `s`
  have hstep := addSpan_takes insertNew existing new.inOrder
    (taken insertNew existing new.inOrder before) s
  have hnew : ∀ p ∈ (taken insertNew existing new.inOrder before).replaced, p.1 ≠ s := by
    intro p hp hps
    have hpb := ((mem_taken_replaced_iff _ _ _ hbefore p).mp hp).2
    exact hbefore s (List.mem_cons_self ..) (hps ▸ hpb)
  have hs := mem_taken_replaced_iff insertNew existing new.inOrder hbehind (s, old)
  rw [← hsplit, ← of_eq_taken, taken_append] at hs
  have hearlier := mem_taken_replaced_iff insertNew existing new.inOrder hbefore
  rw [← horder, ← of_eq_taken] at hearlier
  calc (s, old) ∉ (NameMatch.of insertNew existing new).replaced
      ↔ (s, old) ∉ (addSpan insertNew existing new.inOrder
          (taken insertNew existing new.inOrder before) s).replaced := by
        simp only [List.foldl_cons, List.foldl_nil] at hs
        simp [hs]
    _ ↔ ∃ p ∈ (taken insertNew existing new.inOrder before).replaced,
          p.2.overlaps old = true := hstep.not_mem_replaced_iff hnew hfind
    _ ↔ _ := by simp only [hearlier, and_assoc]

end NameMatch

end CodeGraft
