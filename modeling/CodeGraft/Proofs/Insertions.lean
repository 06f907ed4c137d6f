import CodeGraft.Proofs.Indexes
import CodeGraft.Proofs.NameMatches
import CodeGraft.Proofs.StableOrder
import Mathlib.Data.List.Induction

/-!
# Where new callables are inserted

A match with insertions replaces the same spans as one without. The callables that it inserts are
those of new names that lie in no other callable of the new code. Each stands behind the replacement
that precedes it in the new code, or in front of all of them, and those at one offset keep the order
of the new code.
-/

namespace CodeGraft

open Text

namespace Edit

variable {text : Text} {reached : Nat} {edits : List Edit}

theorem sorted_filter (p : Edit → Bool) (edits : List Edit) :
    sorted (edits.filter p) = (sorted edits).filter p := by
  have hsorts := sortsTo_sorted edits
  refine (sortsTo_iff.mp ⟨hsorts.inOrder.sublist List.filter_sublist, ?_⟩).symm
  intro start stop
  rw [List.filter_comm, hsorts.stable, List.filter_comm]

/-- Where insertions have been reached, nothing of the text stands between them. -/
theorem flatMap_isPrefix_weave (h : InOrder text reached edits) :
    (edits.filter (covers reached reached)).flatMap (·.replacement) <+:
      weave (gaps text reached edits) (edits.map (·.replacement)) := by
  induction edits with
  | nil => exact List.nil_prefix
  | cons e edits ih =>
    have htail := h.tail
    by_cases hcovers : e.covers reached reached = true
    · have hrange := covers_iff.mp hcovers
      rw [hrange.2, Int.toNat_natCast] at htail
      have hgap : Text.slice text reached reached = [] := by
        apply List.eq_nil_of_length_eq_zero
        rw [Text.slice_length]
        omega
      rw [List.filter_cons_of_pos hcovers, List.flatMap_cons, gaps, List.map_cons, weave, hrange.1,
        hrange.2, Int.toNat_natCast, hgap, List.nil_append]
      exact List.prefix_append_right_inj _ |>.mpr (ih htail)
    · -- the edit reaches further, and so do all those behind it
      have hnone : edits.filter (covers reached reached) = [] := by
        rw [List.filter_eq_nil_iff]
        intro a ha hrange
        have hle := h.reached_le e (List.mem_cons_self ..)
        have hin := inRange_iff.mp (h.inRange e (List.mem_cons_self ..))
        have hbehind := (List.pairwise_cons.mp h.ordered).1 a ha
        rw [covers_iff] at hrange hcovers
        omega
      rw [List.filter_cons_of_neg hcovers, hnone]
      exact List.nil_prefix

theorem flatMap_isInfix_weave (h : InOrder text reached edits) (offset : Int) :
    (edits.filter (covers offset offset)).flatMap (·.replacement) <:+:
      weave (gaps text reached edits) (edits.map (·.replacement)) := by
  induction edits generalizing reached with
  | nil => exact List.nil_infix
  | cons e edits ih =>
    by_cases hcovers : e.covers offset offset = true
    · have hrange := covers_iff.mp hcovers
      have hin := inRange_iff.mp (h.inRange e (List.mem_cons_self ..))
      have hoffset : ((offset.toNat : Nat) : Int) = offset := by omega
      have htail := h.tail
      rw [hrange.2] at htail
      have hrest := flatMap_isPrefix_weave htail
      rw [hoffset] at hrest
      rw [List.filter_cons_of_pos hcovers, List.flatMap_cons, gaps, List.map_cons, weave, hrange.2,
        List.append_assoc]
      have hjoined := (List.prefix_append_right_inj e.replacement).mpr hrest
      exact hjoined.isInfix.trans (List.suffix_append _ _).isInfix
    · rw [List.filter_cons_of_neg hcovers, gaps, List.map_cons, weave]
      exact (ih h.tail).trans (List.suffix_append _ _).isInfix

end Edit

def Span.Within (s t : Span) : Prop := t.start ≤ s.start ∧ s.stop ≤ t.stop

instance (s t : Span) : Decidable (s.Within t) := inferInstanceAs (Decidable (_ ∧ _))

/-- A span of a source text that lies in no other one. -/
structure Index.Outermost (source : Text) (t : Span) : Prop where
  mem : t ∈ (Index.of source).spans
  alone : ∀ u ∈ (Index.of source).spans, u ≠ t → ¬t.Within u

theorem Index.start_lt_stop {source : Text} {s : Span} (h : s ∈ (Index.of source).spans) :
    s.start < s.stop := by
  obtain ⟨shape, hs⟩ := Index.exists_shape_of_mem h
  exact (Shape.isProperIn_of_mem_spans hs).start_lt_stop

namespace NameMatch

variable {insertNew : Bool} {existing : Index} {all spans order before behind : List Span}
  {m m' : NameMatch} {s first : Span}

theorem taken_snoc (insertNew : Bool) (existing : Index) (all spans : List Span) (s : Span) :
    taken insertNew existing all (spans ++ [s]) =
      addSpan insertNew existing all (taken insertNew existing all spans) s :=
  taken_append insertNew existing all spans [s]

theorem replaced_addSpan_eq (insertNew : Bool) (existing : Index) (all : List Span) (s : Span)
    (h : m'.replaced = m.replaced) : (addSpan insertNew existing all m' s).replaced =
      (addSpan false existing all m s).replaced := by
  unfold addSpan
  cases existing.find? s.name with
  | none => by_cases hadd : (insertNew && !s.isNestedIn all) = true <;> simp [hadd, h]
  | some old => by_cases hblocked : m.replaced.any (old.overlaps ·.2) = true <;> simp [hblocked, h]

theorem replaced_taken (insertNew : Bool) (existing : Index) (all spans : List Span) :
    (taken insertNew existing all spans).replaced = (taken false existing all spans).replaced := by
  induction spans using List.reverseRecOn with
  | nil => rfl
  | append_singleton spans s ih =>
    rw [taken_snoc, taken_snoc]
    exact replaced_addSpan_eq insertNew existing all s ih

/-- Whether a new span is inserted: its name is new, and it lies in no other new span. -/
def isInserted (existing : Index) (all : List Span) (s : Span) : Bool :=
  (existing.find? s.name).isNone && !s.isNestedIn all

theorem added_taken (existing : Index) (all spans : List Span) :
    (taken true existing all spans).added.map (·.1) = spans.filter (isInserted existing all) := by
  induction spans using List.reverseRecOn with
  | nil => rfl
  | append_singleton spans s ih =>
    have hstep := addSpan_takes true existing all (taken true existing all spans) s
    rw [taken_snoc, List.filter_append, ← ih]
    generalize addSpan true existing all (taken true existing all spans) s = m' at hstep
    cases hstep with
    | replaces old hfind hfree => simp [isInserted, hfind]
    | skips old hfind hblocked => simp [isInserted, hfind]
    | adds hfind hinsert hnested => simp [isInserted, hfind, hnested]
    | drops hfind hdrop => simp [isInserted, hfind, hdrop rfl]

theorem exists_anchor_of_mem_added {p : Span × Option Span}
    (h : p ∈ (taken insertNew existing all spans).added) :
    ∃ before behind, spans = before ++ p.1 :: behind ∧
      p.2 = (taken insertNew existing all before).anchor? := by
  induction spans using List.reverseRecOn with
  | nil => cases h
  | append_singleton spans s ih =>
    have hearlier (h : p ∈ (taken insertNew existing all spans).added) :
        ∃ before behind, spans ++ [s] = before ++ p.1 :: behind ∧
          p.2 = (taken insertNew existing all before).anchor? := by
      obtain ⟨before, behind, horder, hanchor⟩ := ih h
      exact ⟨before, behind ++ [s], by simp [horder], hanchor⟩
    have hstep := addSpan_takes insertNew existing all (taken insertNew existing all spans) s
    rw [taken_snoc] at h
    generalize addSpan insertNew existing all (taken insertNew existing all spans) s = m'
      at hstep h
    cases hstep with
    | replaces old hfind hfree => exact hearlier h
    | skips old hfind hblocked => exact hearlier h
    | drops hfind hdrop => exact hearlier h
    | adds hfind hinsert hnested =>
      rcases List.mem_append.mp h with h | h
      · exact hearlier h
      · rw [List.mem_singleton.mp h]
        exact ⟨spans, [], rfl, rfl⟩

/-- The existing span that the last of some pairs in front of a new span replaces. -/
def anchorIn (order : List Span) (pairs : List (Span × Span)) (s : Span) : Option Span :=
  (pairs.filter fun p => p.1 ∈ order.takeWhile (· ≠ s)).getLast?.map (·.2)

theorem takeWhile_ne_of_nodup (horder : order = before ++ s :: behind) (hnodup : order.Nodup) :
    order.takeWhile (· ≠ s) = before := by
  have hbefore : ∀ t ∈ before, decide (t ≠ s) = true := by
    intro t ht
    rw [horder, List.nodup_append] at hnodup
    simpa using hnodup.2.2 t ht s (List.mem_cons_self ..)
  rw [horder, List.takeWhile_append_of_pos hbefore]
  simp

/-- Of what a whole run replaces, that which stands in front of a new span has been replaced when
the span is taken up. -/
theorem replaced_filter_eq (insertNew : Bool) (existing : Index)
    (horder : order = before ++ s :: behind) (hnodup : order.Nodup) :
    ((taken insertNew existing all order).replaced.filter fun p => p.1 ∈ before) =
      (taken insertNew existing all before).replaced := by
  obtain ⟨later, hlater, hmem⟩ := foldl_replaced_append insertNew existing all
    (taken insertNew existing all before) (s :: behind)
  have hearlier : ∀ p ∈ (taken insertNew existing all before).replaced,
      decide (p.1 ∈ before) = true := by
    intro p hp
    have hsub := (taken_sound insertNew existing all before).replaced_sublist
    simpa using hsub.subset (List.mem_map_of_mem hp)
  have hnone : ∀ p ∈ later, ¬ decide (p.1 ∈ before) = true := by
    intro p hp hbefore
    rw [horder, List.nodup_append] at hnodup
    exact hnodup.2.2 p.1 (of_decide_eq_true hbefore) p.1 (hmem p hp) rfl
  rw [horder, taken_append, hlater, List.filter_append, List.filter_eq_self.mpr hearlier,
    List.filter_eq_nil_iff.mpr hnone, List.append_nil]

theorem anchor_eq_anchorIn (hnodup : order.Nodup) {p : Span × Option Span}
    (h : p ∈ (taken insertNew existing all order).added) :
    p.2 = anchorIn order (taken insertNew existing all order).replaced p.1 := by
  obtain ⟨before, behind, horder, hanchor⟩ := exists_anchor_of_mem_added h
  rw [hanchor, anchorIn, takeWhile_ne_of_nodup horder hnodup,
    replaced_filter_eq insertNew existing horder hnodup, anchor?]

theorem added_eq_map (insertNew : Bool) (existing : Index) (all : List Span)
    (hnodup : order.Nodup) :
    (taken insertNew existing all order).added =
      ((taken insertNew existing all order).added.map (·.1)).map fun s =>
        (s, anchorIn order (taken insertNew existing all order).replaced s) := by
  rw [List.map_map]
  conv => lhs; rw [← List.map_id (taken insertNew existing all order).added]
  refine List.map_congr_left ?_
  intro p hp
  exact Prod.ext rfl (anchor_eq_anchorIn hnodup hp)

theorem earlier_le {start : Option Span} {pair : Span × Span} {f : Span}
    (h : earlier start pair = some f) :
    f.start ≤ pair.2.start ∧ ∀ g ∈ start, f.start ≤ g.start := by
  unfold earlier at h
  split at h
  next =>
    cases h
    exact ⟨Int.le_refl _, by simp⟩
  next g =>
    split at h
    next hlt =>
      cases h
      refine ⟨Int.le_refl _, ?_⟩
      intro g' hg
      cases hg
      omega
    next hle =>
      cases h
      refine ⟨by omega, ?_⟩
      intro g' hg
      cases hg
      exact Int.le_refl _

theorem foldl_earlier_le {pairs : List (Span × Span)} {start : Option Span} {f : Span}
    (h : pairs.foldl earlier start = some f) :
    (∀ g ∈ start, f.start ≤ g.start) ∧ ∀ p ∈ pairs, f.start ≤ p.2.start := by
  induction pairs generalizing start with
  | nil =>
    refine ⟨?_, by simp⟩
    intro g hg
    obtain rfl := Option.some.inj (h.symm.trans hg)
    exact Int.le_refl _
  | cons pair pairs ih =>
    obtain ⟨g, hg⟩ := Option.isSome_iff_exists.mp (earlier_isSome start pair)
    obtain ⟨hfront, hpairs⟩ := ih h
    obtain ⟨hpair, hstart⟩ := earlier_le hg
    have hle := hfront g hg
    refine ⟨?_, List.forall_mem_cons.mpr ⟨by omega, hpairs⟩⟩
    intro g' hg'
    have hle' := hstart g' hg'
    omega

theorem first?_le (h : m.first? = some first) : ∀ p ∈ m.replaced, first.start ≤ p.2.start :=
  (foldl_earlier_le h).2

/-! ### The edits of a match with insertions -/

/-- Where a new span is inserted: behind the existing span `anchor`, or else in front of `first`. -/
def placeFor (first : Span) (anchor : Option Span) : Int := anchor.elim first.start Span.stop

/-- What is inserted there for the new span `s`: its content, at the indentation of the existing
span beside it, with a blank line between the two. -/
def textFor (existing newCode : Text) (first : Span) (anchor : Option Span) (s : Span) : Text :=
  let beside := anchor.getD first
  let indent := indentAt existing beside.start.toNat
  let moved := reindent s.content indent (indentAt newCode s.start.toNat)
  if anchor.isSome then "\n\n".toList ++ indent ++ moved else moved ++ "\n\n".toList ++ indent

theorem insertion_eq (existing newCode : Text) (first s : Span) (anchor : Option Span) :
    insertion existing newCode first (s, anchor) =
      ⟨placeFor first anchor, placeFor first anchor, textFor existing newCode first anchor s⟩ := by
  cases anchor <;> rfl

theorem filter_insertions (existing newCode : Text) (first : Span) (anchorOf : Span → Option Span)
    (inserted : List Span) (offset : Int) :
    (inserted.map fun s => insertion existing newCode first (s, anchorOf s)).filter
        (Edit.covers offset offset) =
      (inserted.filter fun s => placeFor first (anchorOf s) = offset).map fun s =>
        ⟨offset, offset, textFor existing newCode first (anchorOf s) s⟩ := by
  have hplace : (Edit.covers offset offset ∘ fun s =>
      insertion existing newCode first (s, anchorOf s)) =
        fun s => decide (placeFor first (anchorOf s) = offset) := by
    funext s
    simp [insertion_eq, Edit.covers]
  rw [List.filter_map, hplace]
  refine List.map_congr_left ?_
  intro s hs
  have hoffset := of_decide_eq_true (List.mem_filter.mp hs).2
  rw [insertion_eq, hoffset]

theorem Sound.filter_placed {seen : List Span} {text : Text} (newCode : Text) (first : Span)
    (hm : Sound insertNew (Index.of text) all seen m) :
    (m.placed text newCode first).filter (fun e => e.start ≠ e.stop) =
        m.replaced.map (replacement text newCode) ∧
      ∀ offset, (m.placed text newCode first).filter (Edit.covers offset offset) =
        (m.added.map (insertion text newCode first)).filter (Edit.covers offset offset) := by
  have hlt : ∀ e ∈ m.replaced.map (replacement text newCode), e.start < e.stop := by
    intro e he
    obtain ⟨p, hp, rfl⟩ := List.mem_map.mp he
    exact Index.start_lt_stop (Index.find?_eq_some_iff.mp (hm.replaced_found p hp)).1
  have hempty : ∀ e ∈ m.added.map (insertion text newCode first), e.start = e.stop := by
    intro e he
    obtain ⟨p, -, rfl⟩ := List.mem_map.mp he
    exact insertion_empty text newCode first p
  constructor
  · rw [placed, List.filter_append, List.filter_eq_self.mpr, List.filter_eq_nil_iff.mpr,
      List.append_nil]
    · intro e he
      simpa using hempty e he
    · intro e he
      have hne := hlt e he
      simp only [decide_eq_true_eq]
      omega
  · intro offset
    rw [placed, List.filter_append, List.filter_eq_nil_iff.mpr, List.nil_append]
    intro e he hcovers
    have hne := hlt e he
    rw [Edit.covers_iff] at hcovers
    omega

/-- What a match with insertions does beside replacing `pairs` of a new and an existing span: the
new spans `inserted`, of new names and in no other new span, come behind the existing span that the
last pair in front of them replaces, or in front of the existing span `first`, which is the earliest
replaced one. -/
structure Inserts (existing newCode : Text) (pairs : List (Span × Span)) (first : Span)
    (inserted : List Span) (edits : List Edit) : Prop where
  first_replaced : ∃ p ∈ pairs, p.2 = first
  first_le : ∀ p ∈ pairs, first.start ≤ p.2.start
  mem_iff : ∀ s, s ∈ inserted ↔ Index.Outermost newCode s ∧
    ∀ t ∈ (Index.of existing).spans, t.name ≠ s.name
  inOrder : inserted.Sublist (Index.of newCode).inOrder
  nodup : inserted.Nodup
  edits_at : ∀ offset, edits.filter (Edit.covers offset offset) =
    (inserted.filter fun s =>
      placeFor first (anchorIn (Index.of newCode).inOrder pairs s) = offset).map fun s =>
        ⟨offset, offset,
          textFor existing newCode first (anchorIn (Index.of newCode).inOrder pairs s) s⟩

theorem isNestedIn_inOrder_iff {source : Text} (hs : s ∈ (Index.of source).spans) :
    s.isNestedIn (Index.of source).inOrder = false ↔
      ∀ t ∈ (Index.of source).spans, t ≠ s → ¬s.Within t := by
  simp only [Span.isNestedIn, List.any_eq_false, Span.Within]
  constructor
  · intro h t ht hne
    have hname : t.name ≠ s.name := fun heq => hne (Index.eq_of_name_eq ht hs heq)
    simpa [hname] using h t (Index.mem_inOrder.mpr ht)
  · intro h t ht
    by_cases hname : t.name = s.name
    · simp [hname]
    · have hne : t ≠ s := fun heq => hname (by rw [heq])
      simpa [hname] using h t (Index.mem_inOrder.mp ht) hne

theorem find?_eq_none_iff {source name : Text} :
    (Index.of source).find? name = none ↔ ∀ t ∈ (Index.of source).spans, t.name ≠ name := by
  simp [Index.find?, List.find?_eq_none]

theorem mem_inserted_iff {existing newCode : Text} :
    s ∈ (Index.of newCode).inOrder.filter
        (isInserted (Index.of existing) (Index.of newCode).inOrder) ↔
      Index.Outermost newCode s ∧ ∀ t ∈ (Index.of existing).spans, t.name ≠ s.name := by
  rw [List.mem_filter, Index.mem_inOrder, isInserted, Bool.and_eq_true, Option.isNone_iff_eq_none,
    find?_eq_none_iff, Bool.not_eq_true']
  constructor
  · intro h
    exact ⟨⟨h.1, (isNestedIn_inOrder_iff h.1).mp h.2.2⟩, h.2.1⟩
  · intro h
    exact ⟨h.1.mem, h.2, (isNestedIn_inOrder_iff h.1.mem).mpr h.1.alone⟩

theorem inserts_of_first? {existing newCode : Text} :
    let m := NameMatch.of true (Index.of existing) (Index.of newCode)
    m.first? = some first →
      Inserts existing newCode m.replaced first (m.added.map (·.1)) (m.edits existing newCode) ∧
      (m.edits existing newCode).filter (fun e => e.start ≠ e.stop) =
        Edit.sorted (m.replaced.map (replacement existing newCode)) := by
  intro m hfirst
  have hm : Sound true _ _ _ m := of_sound true (Index.of existing) (Index.of newCode)
  have hadded : m.added.map (·.1) = (Index.of newCode).inOrder.filter
      (isInserted (Index.of existing) (Index.of newCode).inOrder) := added_taken _ _ _
  obtain ⟨hfilter, hempty⟩ := hm.filter_placed newCode first
  refine ⟨⟨first?_mem hfirst, first?_le hfirst, ?_, hm.added_sublist,
    hm.added_sublist.nodup (Index.nodup_inOrder newCode), ?_⟩, ?_⟩
  · intro s
    rw [hadded]
    exact mem_inserted_iff
  · intro offset
    have hanchors := added_eq_map true (Index.of existing) (Index.of newCode).inOrder
      (Index.nodup_inOrder newCode)
    rw [← of_eq_taken] at hanchors
    have hinsertions : m.added.map (insertion existing newCode first) =
        (m.added.map (·.1)).map fun s => insertion existing newCode first
          (s, anchorIn (Index.of newCode).inOrder m.replaced s) := by
      conv => lhs; rw [hanchors]
      rw [List.map_map]
      rfl
    rw [edits_eq_sorted hfirst, (Edit.sortsTo_sorted _).stable, hempty, hinsertions,
      filter_insertions]
  · rw [edits_eq_sorted hfirst, ← Edit.sorted_filter, hfilter]

end NameMatch

namespace Plan

/-- Inserting new callables only adds to a plan. Without the empty edits it is the plan that inserts
nothing. Each inserted span appears once, as a whole and set off by a blank line: behind the existing
span that the last replacement in front of it in the new code replaces, or in front of the earliest
replaced span if there is no replacement in front of it. What is inserted at one offset stands
together in the result, in the order of the new code: by start, and the longest first of those with
one start. -/
theorem of_insertNew_adds {existing newCode : Text}
    (htier : (Plan.of existing newCode true).tier = .nameMatch) :
    let m := NameMatch.of true (Index.of existing) (Index.of newCode)
    let edits := (Plan.of existing newCode true).edits
    let order := (Index.of newCode).inOrder
    let inserted := m.added.map (·.1)
    let anchor := NameMatch.anchorIn order m.replaced
    (Plan.of existing newCode false).tier = .nameMatch ∧
    edits.filter (fun e => e.start ≠ e.stop) = (Plan.of existing newCode false).edits ∧
    order.Pairwise (fun a b => a.start < b.start ∨ (a.start = b.start ∧ b.stop ≤ a.stop)) ∧
    NameMatch.Picks existing newCode m.replaced ∧ (m.replaced.map (·.1)).Sublist order ∧
    (Plan.of existing newCode false).edits = Edit.sorted (m.replaced.map fun p =>
      ⟨p.2.start, p.2.stop, reindent p.1.content (indentAt existing p.2.start.toNat)
        (indentAt newCode p.1.start.toNat)⟩) ∧
    ∃ first result, m.first? = some first ∧
      NameMatch.Inserts existing newCode m.replaced first inserted edits ∧
      (Plan.of existing newCode true).apply existing = .ok result ∧
      result = Edit.weave (Edit.gaps existing 0 edits) (edits.map (·.replacement)) ∧
      ∀ offset, ((inserted.filter fun s =>
        NameMatch.placeFor first (anchor s) = offset).flatMap fun s =>
          NameMatch.textFor existing newCode first (anchor s) s) <:+: result := by
  intro m edits order inserted anchor
  have hshares := (of_tier_iff existing newCode true).mp htier
  have hm := NameMatch.of_sound true (Index.of existing) (Index.of newCode)
  obtain ⟨first, hfirst⟩ : ∃ first, m.first? = some first := NameMatch.exists_first? true hshares
  obtain ⟨hinserts, hfilter⟩ := NameMatch.inserts_of_first? hfirst
  have hwithout : (Plan.of existing newCode false).edits =
      Edit.sorted (m.replaced.map (NameMatch.replacement existing newCode)) := by
    have hreplaced : m.replaced =
        (NameMatch.of false (Index.of existing) (Index.of newCode)).replaced :=
      NameMatch.replaced_taken true _ _ _
    rw [(of_sharesName hshares).2, hreplaced]
    exact NameMatch.edits_of_false hshares
  have hedits : edits = m.edits existing newCode := (of_sharesName hshares).2
  have hresult := Edit.apply_eq_weave (of_applicable existing newCode true)
  have hinOrder := (of_applicable existing newCode true).inOrder
  rw [sorted_of_edits] at hresult hinOrder
  rw [← hedits] at hinserts hfilter
  refine ⟨(of_tier_iff existing newCode false).mpr hshares, hfilter.trans hwithout.symm,
    (Index.inOrder_pairwise _).imp Span.precedes_iff.mp,
    NameMatch.of_picks true existing newCode, hm.replaced_sublist, hwithout,
    first, _, hfirst, hinserts, hresult, rfl, ?_⟩
  intro offset
  have htogether := Edit.flatMap_isInfix_weave hinOrder offset
  rwa [hinserts.edits_at, List.flatMap_map] at htogether

/-- One callable in front of all replacements, and two behind the same one. All are moved to the
indentation of the existing text. -/
theorem of_insertNew_adds_of_three :
    let existing : Text := "\ta(){}\n\tb(){}"
    let newCode : Text := "x()\x7b\n\x7d\nb(){1}\ny()\x7b\n\x7d\nz(){}\na(){1}"
    let a : Span := ⟨"a", "a(){}", 1⟩
    let b : Span := ⟨"b", "b(){}", 8⟩
    let x : Span := ⟨"x", "x()\x7b\n\x7d", 0⟩
    let y : Span := ⟨"y", "y()\x7b\n\x7d", 14⟩
    let z : Span := ⟨"z", "z(){}", 21⟩
    let pairs : List (Span × Span) := [(⟨"b", "b(){1}", 7⟩, b), (⟨"a", "a(){1}", 27⟩, a)]
    let edits := (Plan.of existing newCode true).edits
    (Plan.of existing newCode true).tier = .nameMatch ∧
      NameMatch.Picks existing newCode pairs ∧
      edits.filter (fun e => e.start ≠ e.stop) = (Plan.of existing newCode false).edits ∧
      NameMatch.Inserts existing newCode pairs a [x, y, z] edits ∧
      (Plan.of existing newCode true).apply existing =
        .ok "\tx()\x7b\n\t\x7d\n\n\ta(){1}\n\tb(){1}\n\n\ty()\x7b\n\t\x7d\n\n\tz(){}" := by
  intro existing newCode a b x y z pairs edits
  have hold : (Index.of existing).spans = [a, b] := by decide +kernel
  have hnew : (Index.of newCode).spans =
      [x, ⟨"b", "b(){1}", 7⟩, y, z, ⟨"a", "a(){1}", 27⟩] := by decide +kernel
  obtain ⟨htier, hof⟩ := of_known_spans true hold hnew (by decide +kernel) (by decide +kernel)
  have hpairs : (NameMatch.of true (Index.of existing) (Index.of newCode)).replaced = pairs := by
    rw [hof]
    decide +kernel
  have hadded : (NameMatch.of true (Index.of existing) (Index.of newCode)).added =
      [(x, none), (y, some b), (z, some b)] := by
    rw [hof]
    decide +kernel
  obtain ⟨-, hfilter, -, hpicks, -, -, first, result, hfirst, hinserts, happly, hresult, -⟩ :=
    of_insertNew_adds htier
  have ha : first = a := by
    rw [NameMatch.first?, hpairs] at hfirst
    exact Option.some.inj (hfirst.symm.trans (by decide +kernel))
  rw [hpairs] at hpicks hinserts
  rw [hadded, ha] at hinserts
  have hedits : edits = [⟨1, 1, "x()\x7b\n\t\x7d\n\n\t"⟩, ⟨1, 6, "a(){1}"⟩, ⟨8, 13, "b(){1}"⟩,
      ⟨13, 13, "\n\n\ty()\x7b\n\t\x7d"⟩, ⟨13, 13, "\n\n\tz(){}"⟩] := by
    change (Plan.of existing newCode true).edits = _
    rw [(of_sharesName ((of_tier_iff existing newCode true).mp htier)).2,
      NameMatch.edits_eq_sorted hfirst, NameMatch.placed, hpairs, hadded, ha]
    exact Edit.sorted_eq_of_stable (by decide +kernel) (by decide +kernel) (by decide +kernel)
  refine ⟨htier, hpicks, hfilter, hinserts, ?_⟩
  change result = Edit.weave (Edit.gaps existing 0 edits) (edits.map (·.replacement)) at hresult
  rw [happly, hresult, hedits]
  decide +kernel

end Plan

end CodeGraft
