import CodeGraft.Proofs.Placement
import CodeGraft.Proofs.StableOrder
import Mathlib.Data.List.Induction

/-!
# What a name match replaces

A plan matches names exactly when the two texts share one. Which shared names it replaces is settled
in the order of the new code, by what they overlap in the existing text. The new code plays no part
in that: spans that it carries may share characters, unless one shape has found them both.
-/

namespace CodeGraft

open Text

namespace NameMatch

/-- The pairs of a new span and the existing span of its name that a match without insertions picks:
a shared name is left out exactly when its existing span overlaps that of a name picked before it
in the order of the new code. -/
structure Picks (existing newCode : Text) (pairs : List (Span × Span)) : Prop where
  shared : ∀ p ∈ pairs,
    p.1 ∈ (Index.of newCode).spans ∧ p.2 ∈ (Index.of existing).spans ∧ p.1.name = p.2.name
  names_nodup : (pairs.map (·.1.name)).Nodup
  left_out_iff : ∀ before new behind old, (Index.of newCode).inOrder = before ++ new :: behind →
    old ∈ (Index.of existing).spans → new.name = old.name →
      ((new, old) ∉ pairs ↔ ∃ p ∈ pairs, p.1 ∈ before ∧ p.2.overlaps old = true)

theorem of_picks (insertNew : Bool) (existing newCode : Text) :
    Picks existing newCode
      (NameMatch.of insertNew (Index.of existing) (Index.of newCode)).replaced := by
  have hm := of_sound insertNew (Index.of existing) (Index.of newCode)
  refine ⟨?_, ?_, ?_⟩
  · intro p hp
    obtain ⟨hold, hname⟩ := Index.find?_eq_some_iff.mp (hm.replaced_found p hp)
    have hnew := hm.replaced_sublist.subset (List.mem_map_of_mem hp)
    exact ⟨Index.mem_inOrder.mp hnew, hold, hname.symm⟩
  · have hnames := hm.replaced_sublist.map (·.name)
    rw [List.map_map] at hnames
    exact hnames.nodup (Index.nodup_names_inOrder newCode)
  · intro before new behind old horder hold hname
    exact not_mem_replaced_iff insertNew horder (Index.nodup_inOrder newCode)
      (Index.find?_eq_some_iff.mpr ⟨hold, hname.symm⟩)

theorem taken_congr (insertNew : Bool) {existing existing' : Index}
    (h : existing.spans = existing'.spans) (all spans : List Span) :
    taken insertNew existing all spans = taken insertNew existing' all spans := by
  have hstep : addSpan insertNew existing = addSpan insertNew existing' := by
    funext all m s
    simp only [addSpan, Index.find?, h]
  rw [taken, taken, hstep]

section

variable {existing newCode : Text} {pairs pairs' : List (Span × Span)} {before behind : List Span}
  {new old : Span}

theorem Picks.mem_of_mem (h : Picks existing newCode pairs) (h' : Picks existing newCode pairs')
    (horder : (Index.of newCode).inOrder = before ++ new :: behind)
    (hbefore : ∀ p : Span × Span, p.1 ∈ before → (p ∈ pairs ↔ p ∈ pairs'))
    (hmem : (new, old) ∈ pairs) : (new, old) ∈ pairs' := by
  obtain ⟨-, hold, hname⟩ := h.shared _ hmem
  by_contra hnot
  obtain ⟨p, hp, hpb, hoverlap⟩ :=
    (h'.left_out_iff before new behind old horder hold hname).mp hnot
  have hleft := (h.left_out_iff before new behind old horder hold hname).mpr
    ⟨p, (hbefore p hpb).mpr hp, hpb, hoverlap⟩
  exact hleft hmem

theorem Picks.mem_iff (h : Picks existing newCode pairs) (h' : Picks existing newCode pairs')
    (horder : (Index.of newCode).inOrder = before ++ behind) :
    ∀ p : Span × Span, p.1 ∈ before → (p ∈ pairs ↔ p ∈ pairs') := by
  induction before using List.reverseRecOn generalizing behind with
  | nil =>
    intro p hp
    cases hp
  | append_singleton before new ih =>
    have horder' : (Index.of newCode).inOrder = before ++ new :: behind := by simpa using horder
    have hbefore := ih horder'
    intro p hp
    rcases List.mem_append.mp hp with hp | hp
    · exact hbefore p hp
    · obtain ⟨s, old⟩ := p
      obtain rfl : s = new := List.mem_singleton.mp hp
      exact ⟨h.mem_of_mem h' horder' hbefore,
        h'.mem_of_mem h horder' fun p hp => (hbefore p hp).symm⟩

theorem Picks.perm (h : Picks existing newCode pairs) (h' : Picks existing newCode pairs') :
    pairs.Perm pairs' := by
  have hnodup : pairs.Nodup := h.names_nodup.of_map
  have hnodup' : pairs'.Nodup := h'.names_nodup.of_map
  refine (List.perm_ext_iff_of_nodup hnodup hnodup').mpr ?_
  have hiff := h.mem_iff h' (List.append_nil _).symm
  intro p
  constructor
  · intro hp
    exact (hiff p (Index.mem_inOrder.mpr (h.shared p hp).1)).mp hp
  · intro hp
    exact (hiff p (Index.mem_inOrder.mpr (h'.shared p hp).1)).mpr hp

end

theorem added_eq_nil (existing new : Index) : (NameMatch.of false existing new).added = [] := by
  rw [List.eq_nil_iff_forall_not_mem]
  intro p hp
  have hinsert := ((of_sound false existing new).added_new p hp).1
  cases hinsert

theorem exists_first? (insertNew : Bool) {existing newCode : Text}
    (h : (Index.of existing).SharesName (Index.of newCode)) :
    ∃ first, (NameMatch.of insertNew (Index.of existing) (Index.of newCode)).first? =
      some first := by
  rw [← Option.ne_none_iff_exists', Ne, first?_eq_none_iff, replaced_eq_nil_iff]
  exact not_not_intro h

theorem edits_of_false {existing newCode : Text}
    (h : (Index.of existing).SharesName (Index.of newCode)) :
    (NameMatch.of false (Index.of existing) (Index.of newCode)).edits existing newCode =
      Edit.sorted ((NameMatch.of false (Index.of existing) (Index.of newCode)).replaced.map
        (replacement existing newCode)) := by
  obtain ⟨first, hfirst⟩ := exists_first? false h
  rw [edits_eq_sorted hfirst, placed, added_eq_nil, List.map_nil, List.append_nil]

/-- The spans of the new code that a match puts into the existing text. -/
def carried (m : NameMatch) : List Span := m.replaced.map (·.1) ++ m.added.map (·.1)

theorem Sound.mem_seen_of_carried {insertNew : Bool} {existing : Index} {all seen : List Span}
    {m : NameMatch} (hm : Sound insertNew existing all seen m) {s : Span} (hs : s ∈ m.carried) :
    s ∈ seen := by
  rcases List.mem_append.mp hs with hs | hs
  · exact hm.replaced_sublist.subset hs
  · exact hm.added_sublist.subset hs

/-- A replaced span has a name of the existing index and an inserted one has not, so none is carried
in both ways. -/
theorem carried_names_nodup (insertNew : Bool) (existing newCode : Text) :
    ((NameMatch.of insertNew (Index.of existing) (Index.of newCode)).carried.map
      (·.name)).Nodup := by
  have hm := of_sound insertNew (Index.of existing) (Index.of newCode)
  have hnames := Index.nodup_names_inOrder newCode
  rw [carried, List.map_append, List.nodup_append]
  refine ⟨(hm.replaced_sublist.map _).nodup hnames, (hm.added_sublist.map _).nodup hnames, ?_⟩
  intro x hx y hy hxy
  obtain ⟨s, hs, rfl⟩ := List.mem_map.mp hx
  obtain ⟨t, ht, rfl⟩ := List.mem_map.mp hy
  obtain ⟨p, hp, rfl⟩ := List.mem_map.mp hs
  obtain ⟨q, hq, rfl⟩ := List.mem_map.mp ht
  have hfound := hm.replaced_found p hp
  rw [hxy, (hm.added_new q hq).2.1] at hfound
  cases hfound

theorem added_not_within {insertNew : Bool} {existing newCode : Text} {p : Span × Option Span}
    (hp : p ∈ (NameMatch.of insertNew (Index.of existing) (Index.of newCode)).added) {s : Span}
    (hs : s ∈ (Index.of newCode).spans) (hne : s ≠ p.1) :
    ¬(s.start ≤ p.1.start ∧ p.1.stop ≤ s.stop) := by
  have hm := of_sound insertNew (Index.of existing) (Index.of newCode)
  have hnested := (hm.added_new p hp).2.2
  have hseen := hm.added_sublist.subset (List.mem_map_of_mem hp)
  have hname : s.name ≠ p.1.name := fun hname =>
    hne (Index.eq_of_name_eq hs (Index.mem_inOrder.mp hseen) hname)
  rintro ⟨hstart, hstop⟩
  rw [Span.isNestedIn, List.any_eq_false] at hnested
  exact hnested s (Index.mem_inOrder.mpr hs) (by simp [hname, hstart, hstop])

end NameMatch

theorem Shape.disjoint_of_mem_spans {shape : Shape} {source : Text} {s t : Span}
    (hs : s ∈ shape.spans source) (ht : t ∈ shape.spans source) (hne : s ≠ t) :
    s.stop ≤ t.start ∨ t.stop ≤ s.start := by
  have hsymm : Std.Symm fun s t : Span => s.stop ≤ t.start ∨ t.stop ≤ s.start :=
    ⟨fun _ _ h => h.symm⟩
  have hpair : (shape.spans source).Pairwise fun s t => s.stop ≤ t.start ∨ t.stop ≤ s.start :=
    (shape.spans_pairwise source).imp fun h => Or.inl h
  exact hpair.forall hs ht hne

namespace Plan

/-- A plan matches names exactly when the two texts share one. Its edits then put the picked new
spans, moved to the indentation of the old headers, into the ranges of the existing spans of their
names, and the text between these ranges stays as it is. What is picked depends on the order of the
new code: by start, and the longest first of those with one start. -/
theorem of_name_match_exact (existing newCode : Text) :
    (∀ insertNew, (Plan.of existing newCode insertNew).tier = .nameMatch ↔
      (Index.of existing).SharesName (Index.of newCode)) ∧
    (Index.of newCode).inOrder.Pairwise
      (fun a b => a.start < b.start ∨ (a.start = b.start ∧ b.stop ≤ a.stop)) ∧
    ((Index.of existing).SharesName (Index.of newCode) →
      ∃ pairs, NameMatch.Picks existing newCode pairs ∧
        (Plan.of existing newCode false).edits = Edit.sorted (pairs.map fun p =>
          ⟨p.2.start, p.2.stop, reindent p.1.content (indentAt existing p.2.start.toNat)
            (indentAt newCode p.1.start.toNat)⟩) ∧
        ∃ result, (Plan.of existing newCode false).apply existing = .ok result ∧
          let edits := (Plan.of existing newCode false).edits
          existing = Edit.weave (Edit.gaps existing 0 edits) (edits.map (Edit.target existing)) ∧
          result = Edit.weave (Edit.gaps existing 0 edits) (edits.map (·.replacement))) := by
  refine ⟨of_tier_iff existing newCode,
    (Index.inOrder_pairwise _).imp Span.precedes_iff.mp, ?_⟩
  intro hshares
  have hedits : (Plan.of existing newCode false).edits = _ := (of_sharesName hshares).2
  rw [NameMatch.edits_of_false hshares] at hedits
  have happlicable := of_applicable existing newCode false
  have hresult := Edit.apply_eq_weave happlicable
  have htargets := Edit.eq_weave_targets happlicable
  rw [sorted_of_edits] at hresult htargets
  exact ⟨_, NameMatch.of_picks false existing newCode, hedits, _, hresult, htargets, rfl⟩

theorem of_known_spans (insertNew : Bool) {existing newCode : Text} {olds news : List Span}
    (hold : (Index.of existing).spans = olds) (hnew : (Index.of newCode).spans = news)
    (hshared : ∃ s ∈ olds, ∃ t ∈ news, s.name = t.name)
    (horder : news.Pairwise fun a b => a.precedes b = true) :
    (Plan.of existing newCode insertNew).tier = .nameMatch ∧
      NameMatch.of insertNew (Index.of existing) (Index.of newCode) =
        NameMatch.taken insertNew ⟨olds, []⟩ news news := by
  subst hold hnew
  have hinOrder : (Index.of newCode).inOrder = (Index.of newCode).spans :=
    List.mergeSort_of_pairwise horder
  refine ⟨(of_tier_iff existing newCode insertNew).mpr hshared, ?_⟩
  rw [NameMatch.of_eq_taken, hinOrder]
  exact NameMatch.taken_congr insertNew rfl _ _

theorem spans_of_nested :
    (Index.of "function o(){ const h = function(){} }\nfunction a(){}").spans =
      [⟨"o", "function o(){ const h = function(){} }", 0⟩, ⟨"a", "function a(){}", 39⟩,
        ⟨"h", "const h = function(){}", 14⟩] ∧
    (Index.of "function h(){1}\nfunction o(){2}\nfunction g(){}\nfunction a(){3}").spans =
      [⟨"h", "function h(){1}", 0⟩, ⟨"o", "function o(){2}", 16⟩, ⟨"g", "function g(){}", 32⟩,
        ⟨"a", "function a(){3}", 47⟩] := by
  constructor <;> decide +kernel

/-- The new `o` is left out, as the existing one holds the `h` that is replaced, and `g` is new. -/
theorem of_name_match_exact_of_nested :
    let existing : Text := "function o(){ const h = function(){} }\nfunction a(){}"
    let newCode : Text := "function h(){1}\nfunction o(){2}\nfunction g(){}\nfunction a(){3}"
    let pairs : List (Span × Span) :=
      [(⟨"h", "function h(){1}", 0⟩, ⟨"h", "const h = function(){}", 14⟩),
        (⟨"a", "function a(){3}", 47⟩, ⟨"a", "function a(){}", 39⟩)]
    (Index.of existing).SharesName (Index.of newCode) ∧
      NameMatch.Picks existing newCode pairs ∧
      (Plan.of existing newCode false).edits =
        [⟨14, 36, "function h(){1}"⟩, ⟨39, 53, "function a(){3}"⟩] ∧
      (Plan.of existing newCode false).apply existing =
        .ok "function o(){ function h(){1} }\nfunction a(){3}" := by
  intro existing newCode pairs
  obtain ⟨hold, hnew⟩ := spans_of_nested
  obtain ⟨htier, hof⟩ := of_known_spans false hold hnew (by decide +kernel) (by decide +kernel)
  have hpicks : NameMatch.Picks existing newCode pairs := by
    have hreplaced : (NameMatch.of false (Index.of existing) (Index.of newCode)).replaced =
        pairs := by
      rw [hof]
      decide +kernel
    exact hreplaced ▸ NameMatch.of_picks false existing newCode
  obtain ⟨hiff, -, hexact⟩ := of_name_match_exact existing newCode
  have hshares := (hiff false).mp htier
  obtain ⟨pairs', hpicks', hedits, result, happly, -, hresult⟩ := hexact hshares
  have hknown : (Plan.of existing newCode false).edits =
      [⟨14, 36, "function h(){1}"⟩, ⟨39, 53, "function a(){3}"⟩] := by
    rw [hedits]
    refine Edit.sorted_eq_of_lt (List.Perm.trans ?_ ((hpicks.perm hpicks').map _)) (by decide)
    decide +kernel
  refine ⟨hshares, hpicks, hknown, ?_⟩
  rw [happly, hresult, hknown]
  decide +kernel

/-- What a plan that matches names carries from the new code into the existing text: no span twice,
no two spans of one shape that share a character, and no inserted span from inside another one.
A shared name is carried whenever its place in the existing text is free, so spans of different
shapes may overlap. -/
theorem of_name_match_carries {existing newCode : Text} {insertNew : Bool}
    (htier : (Plan.of existing newCode insertNew).tier = .nameMatch) :
    let m := NameMatch.of insertNew (Index.of existing) (Index.of newCode)
    (∃ first, m.first? = some first ∧
        (Plan.of existing newCode insertNew).edits.Perm (m.placed existing newCode first)) ∧
      NameMatch.Picks existing newCode m.replaced ∧
      m.replaced.Pairwise (fun p q => p.2.overlaps q.2 = false) ∧
      (m.carried.map (·.name)).Nodup ∧
      (∀ s ∈ m.carried, ∃ shape : Shape, s ∈ shape.spans newCode) ∧
      (∀ shape : Shape, ∀ s ∈ m.carried, ∀ t ∈ m.carried,
        s ∈ shape.spans newCode → t ∈ shape.spans newCode → s ≠ t →
          s.stop ≤ t.start ∨ t.stop ≤ s.start) ∧
      ∀ p ∈ m.added, ∀ s ∈ (Index.of newCode).spans, s ≠ p.1 →
        ¬(s.start ≤ p.1.start ∧ p.1.stop ≤ s.stop) := by
  intro m
  have hshares := (of_tier_iff existing newCode insertNew).mp htier
  have hm := NameMatch.of_sound insertNew (Index.of existing) (Index.of newCode)
  refine ⟨?_, NameMatch.of_picks insertNew existing newCode, hm.replaced_disjoint,
    NameMatch.carried_names_nodup insertNew existing newCode, ?_, ?_, ?_⟩
  · cases hfirst : m.first? with
    | none =>
      have hnil := NameMatch.first?_eq_none_iff.mp hfirst
      exact absurd hshares (NameMatch.replaced_eq_nil_iff.mp hnil)
    | some first =>
      refine ⟨first, rfl, ?_⟩
      rw [(of_sharesName hshares).2, NameMatch.edits_eq_sorted hfirst]
      exact Edit.sorted_perm _
  · intro s hs
    exact Index.exists_shape_of_mem (Index.mem_inOrder.mp (hm.mem_seen_of_carried hs))
  · intro shape s _ t _ hs ht hne
    exact Shape.disjoint_of_mem_spans hs ht hne
  · intro p hp s hs hne
    exact NameMatch.added_not_within hp hs hne

theorem of_name_match_carries_of_nested :
    let existing : Text := "function o(){ const h = function(){} }\nfunction a(){}"
    let newCode : Text := "function h(){1}\nfunction o(){2}\nfunction g(){}\nfunction a(){3}"
    let pairs : List (Span × Span) :=
      [(⟨"h", "function h(){1}", 0⟩, ⟨"h", "const h = function(){}", 14⟩),
        (⟨"a", "function a(){3}", 47⟩, ⟨"a", "function a(){}", 39⟩)]
    let m := NameMatch.of true (Index.of existing) (Index.of newCode)
    (Plan.of existing newCode true).tier = .nameMatch ∧
      NameMatch.Picks existing newCode pairs ∧
      m.carried = [⟨"h", "function h(){1}", 0⟩, ⟨"a", "function a(){3}", 47⟩,
        ⟨"g", "function g(){}", 32⟩] ∧
      (Plan.of existing newCode true).edits.Perm
        [⟨14, 36, "function h(){1}"⟩, ⟨39, 53, "function a(){3}"⟩,
          ⟨36, 36, "\n\nfunction g(){}"⟩] ∧
      ∀ shape : Shape, ∀ s ∈ m.carried, ∀ t ∈ m.carried,
        s ∈ shape.spans newCode → t ∈ shape.spans newCode → s ≠ t →
          s.stop ≤ t.start ∨ t.stop ≤ s.start := by
  intro existing newCode pairs m
  obtain ⟨hold, hnew⟩ := spans_of_nested
  obtain ⟨htier, hof⟩ := of_known_spans true hold hnew (by decide +kernel) (by decide +kernel)
  obtain ⟨⟨first, hfirst, hedits⟩, hpicks, -, -, -, hapart, -⟩ := of_name_match_carries htier
  have hreplaced : m.replaced = pairs := by
    change (NameMatch.of true (Index.of existing) (Index.of newCode)).replaced = _
    rw [hof]
    decide +kernel
  have hadded : m.added = [(⟨"g", "function g(){}", 32⟩,
      some ⟨"h", "const h = function(){}", 14⟩)] := by
    change (NameMatch.of true (Index.of existing) (Index.of newCode)).added = _
    rw [hof]
    decide +kernel
  rw [NameMatch.placed, hreplaced, hadded] at hedits
  refine ⟨htier, hreplaced ▸ hpicks, ?_, hedits, hapart⟩
  rw [NameMatch.carried, hreplaced, hadded]
  rfl

/-- Spans of different shapes may overlap, replaced ones (the new `o` holds an `h`, which is written
over the `h` of the existing text as well), inserted ones, and one of each kind. -/
theorem of_name_match_carries_overlapping :
    (¬ ∀ (existing newCode : Text) (insertNew : Bool),
      (Plan.of existing newCode insertNew).tier = .nameMatch →
        (NameMatch.of insertNew (Index.of existing) (Index.of newCode)).carried.Pairwise
          fun s t => s.overlaps t = false) ∧
    (¬ ∀ existing newCode : Text, (Plan.of existing newCode true).tier = .nameMatch →
      ((NameMatch.of true (Index.of existing) (Index.of newCode)).added.map (·.1)).Pairwise
        fun s t => s.overlaps t = false) ∧
    ¬ ∀ existing newCode : Text, (Plan.of existing newCode true).tier = .nameMatch →
      ∀ p ∈ (NameMatch.of true (Index.of existing) (Index.of newCode)).replaced,
        ∀ q ∈ (NameMatch.of true (Index.of existing) (Index.of newCode)).added,
          p.1.overlaps q.1 = false := by
  refine ⟨?_, ?_, ?_⟩
  · intro hdisjoint
    have hold : (Index.of "function h(){}\nfunction o(){}").spans =
        [⟨"h", "function h(){}", 0⟩, ⟨"o", "function o(){}", 15⟩] := by decide +kernel
    have hnew : (Index.of "function o(){ const h = function(){} }").spans =
        [⟨"o", "function o(){ const h = function(){} }", 0⟩,
          ⟨"h", "const h = function(){}", 14⟩] := by decide +kernel
    obtain ⟨htier, hof⟩ := of_known_spans false hold hnew (by decide +kernel) (by decide +kernel)
    have hpair := hdisjoint _ _ _ htier
    rw [hof] at hpair
    revert hpair
    decide +kernel
  · intro hdisjoint
    have hold : (Index.of "z(){}").spans = [⟨"z", "z(){}", 0⟩] := by decide +kernel
    have hnew : (Index.of "x = y => 1 + b()\n{}\nz(){}").spans =
        [⟨"x", "x = y => 1 + b()", 0⟩, ⟨"b", "b()\n{}", 13⟩, ⟨"z", "z(){}", 20⟩] := by
      decide +kernel
    obtain ⟨htier, hof⟩ := of_known_spans true hold hnew (by decide +kernel) (by decide +kernel)
    have hpair := hdisjoint _ _ htier
    rw [hof] at hpair
    revert hpair
    decide +kernel
  · intro hdisjoint
    have hold : (Index.of "h(){}").spans = [⟨"h", "h(){}", 0⟩] := by decide +kernel
    have hnew : (Index.of "function n(){ const h = function(){} }").spans =
        [⟨"n", "function n(){ const h = function(){} }", 0⟩,
          ⟨"h", "const h = function(){}", 14⟩] := by decide +kernel
    obtain ⟨htier, hof⟩ := of_known_spans true hold hnew (by decide +kernel) (by decide +kernel)
    have hpair := hdisjoint _ _ htier
    rw [hof] at hpair
    revert hpair
    decide +kernel

end Plan

end CodeGraft
