import CodeGraft.Callable.Index
import CodeGraft.Proofs.Walk
import Mathlib.Data.List.Nodup

/-!
# Spans in their source

Every span that a shape reports is a stretch of the source, and the spans of one shape follow one
another without sharing a character. The index takes each name once, so a name of the index stands
for one span.
-/

namespace CodeGraft

open Text Pattern Cursor

theorem Delimiter.close?_reaches {d : Delimiter} {style : CommentStyle} {c c' : Cursor}
    (h : d.close? style c = some c') : c.Reaches c' := by
  simp only [Delimiter.close?, Option.map_eq_some_iff] at h
  obtain ⟨n, -, rfl⟩ := h
  exact Reaches.skip _ _

theorem braceBody?_reaches {c c' : Cursor} (h : braceBody? c = some c') : c.Reaches c' := by
  simp only [braceBody?, bind, Option.bind_eq_some_iff] at h
  obtain ⟨closed, hclosed, opened, hopened, hbody⟩ := h
  have h1 := Delimiter.close?_reaches hclosed
  have h2 := fitAt?_reaches hopened
  exact (h1.trans h2).trans (Delimiter.close?_reaches hbody)

namespace Shape

theorem expressionEnd?_reaches {c c' : Cursor} (h : expressionEnd? c = some c') :
    c.Reaches c' := by
  simp only [expressionEnd?] at h
  split at h
  next => cases h
  next =>
    cases h
    exact Reaches.skip _ _

theorem arrowHead?_reaches {c c' : Cursor} (h : arrowHead? c = some c') : c.Reaches c' := by
  simp only [arrowHead?] at h
  split at h
  next =>
    simp only [bind, Option.bind_eq_some_iff] at h
    obtain ⟨closed, hclosed, harrow⟩ := h
    have h1 := (Reaches.next c).trans (Delimiter.close?_reaches hclosed)
    exact h1.trans (fitAt?_reaches harrow)
  next => exact fitAt?_reaches h

theorem boundCallableEnd?_reaches {c c' : Cursor} (h : boundCallableEnd? c = some c') :
    c.Reaches c' := by
  simp only [boundCallableEnd?] at h
  split at h
  next body hbody => exact (fitAt?_reaches hbody).trans (expressionEnd?_reaches h)
  next =>
    split at h
    next opened hopened => exact (fitAt?_reaches hopened).trans (braceBody?_reaches h)
    next =>
      split at h
      next => cases h
      next body hbody =>
        have hhead := arrowHead?_reaches hbody
        split at h
        next => exact (hhead.trans (Reaches.next body)).trans (Delimiter.close?_reaches h)
        next => exact hhead.trans (expressionEnd?_reaches h)

theorem blockEnd_reaches (header : Nat) (c : Cursor) : c.Reaches (blockEnd header c) := by
  simp only [blockEnd]
  split
  next => exact Reaches.skip _ _
  next => split <;> exact Reaches.skip _ _

theorem captured?_between {c : Cursor} {f : Found} {label : Label} {k : Capture}
    (hf : f.FoundFrom c) (h : f.stop.captured? label = some k) :
    f.start.offset ≤ k.start ∧ k.start ≤ f.stop.offset :=
  hf.captured k (List.mem_of_find?_eq_some h)

theorem bounds?_spec {shape : Shape} {c : Cursor} {f : Found} {start : Nat} {stop : Cursor}
    (hf : f.FoundFrom c) (h : shape.bounds? f = some (start, stop)) :
    f.start.offset ≤ start ∧ start ≤ f.stop.offset ∧ f.stop.Reaches stop := by
  have hle := hf.stop_reached.offset_le
  cases shape with
  | declaration =>
    simp only [bounds?, bind, Option.bind_eq_some_iff, Option.some.injEq, Prod.mk.injEq] at h
    obtain ⟨stop, hstop, rfl, rfl⟩ := h
    exact ⟨Nat.le_refl _, hle, braceBody?_reaches hstop⟩
  | assigned =>
    simp only [bounds?, bind, Option.bind_eq_some_iff, Option.some.injEq, Prod.mk.injEq] at h
    obtain ⟨stop, hstop, first, hfirst, rfl, rfl⟩ := h
    have hbetween : f.start.offset ≤ first.start ∧ first.start ≤ f.stop.offset := by
      cases hkeyword : f.stop.captured? .keyword with
      | some k =>
        rw [hkeyword] at hfirst
        cases hfirst
        exact captured?_between hf hkeyword
      | none =>
        rw [hkeyword] at hfirst
        exact captured?_between hf hfirst
    exact ⟨hbetween.1, hbetween.2, boundCallableEnd?_reaches hstop⟩
  | callShaped =>
    simp only [bounds?] at h
    split at h
    next => cases h
    next =>
      simp only [bind, Option.bind_eq_some_iff, Option.some.injEq, Prod.mk.injEq] at h
      obtain ⟨stop, hstop, rfl, rfl⟩ := h
      exact ⟨Nat.le_refl _, hle, braceBody?_reaches hstop⟩
  | indentation =>
    simp only [bounds?, bind, Option.bind_eq_some_iff, Option.some.injEq, Prod.mk.injEq] at h
    obtain ⟨closed, hclosed, colon, hcolon, first, hfirst, rfl, rfl⟩ := h
    have hbetween := captured?_between hf hfirst
    have h1 := (Delimiter.close?_reaches hclosed).trans (fitAt?_reaches hcolon)
    exact ⟨hbetween.1, hbetween.2, h1.trans (blockEnd_reaches _ _)⟩

end Shape

/-- The span is the stretch of `source` between its two ends. -/
structure Span.IsIn (source : Text) (s : Span) : Prop where
  start_nonneg : 0 ≤ s.start
  stop_le : s.stop ≤ source.length
  content_eq : s.content = Text.slice source s.start.toNat s.stop.toNat

theorem Span.isIn_cut {source name : Text} {start stop : Nat} (h : start ≤ stop)
    (hs : stop ≤ source.length) : (Span.cut source name start stop).IsIn source := by
  have hstop : (Span.cut source name start stop).stop = stop := Span.cut_stop h hs
  refine ⟨Int.natCast_nonneg _, by omega, ?_⟩
  rw [hstop]
  rfl

namespace Shape

theorem spansFrom_spec {shape : Shape} {source : Text} {bound : Nat} {c : Cursor}
    (hc : c.IsIn source) :
    (∀ s ∈ shape.spansFrom source bound c, (c.offset : Int) ≤ s.start ∧ s.IsIn source) ∧
      (shape.spansFrom source bound c).Pairwise fun a b => a.stop ≤ b.start := by
  induction bound generalizing c with
  | zero => simp [spansFrom]
  | succ bound ih =>
    simp only [spansFrom]
    split
    next => simp
    next f hfound =>
      have hf := search?_foundFrom hfound
      have hfstop := hc.reaches (hf.start_reached.trans hf.stop_reached)
      have hle := (hf.start_reached.trans hf.stop_reached).offset_le
      split
      next =>
        obtain ⟨hmem, hpair⟩ := ih hfstop
        exact ⟨fun s hs => ⟨by have := (hmem s hs).1; omega, (hmem s hs).2⟩, hpair⟩
      next start stop hbounds =>
        obtain ⟨hstart, hstart', hstop⟩ := bounds?_spec hf hbounds
        have hlead := hf.start_reached.offset_le
        have hstople := hstop.offset_le
        have hin := hfstop.reaches hstop
        have hcut : (Span.cut source (f.stop.capturedText .name) start stop.offset).stop =
            stop.offset := Span.cut_stop (Nat.le_trans hstart' hstople) hin.offset_le
        -- the search goes on at the end of the span, so all further spans lie behind it
        rw [if_pos hstople]
        obtain ⟨hmem, hpair⟩ := ih hin
        refine ⟨?_, List.pairwise_cons.mpr ⟨?_, hpair⟩⟩
        · intro s hs
          rcases List.mem_cons.mp hs with rfl | hs
          · refine ⟨?_, Span.isIn_cut (Nat.le_trans hstart' hstople) hin.offset_le⟩
            simp only [Span.cut]
            omega
          · exact ⟨by have := (hmem s hs).1; omega, (hmem s hs).2⟩
        · intro s hs
          rw [hcut]
          exact (hmem s hs).1

theorem isIn_of_mem_spans {shape : Shape} {source : Text} {s : Span}
    (h : s ∈ shape.spans source) : s.IsIn source :=
  ((spansFrom_spec (IsIn.start source)).1 s h).2

theorem spans_pairwise (shape : Shape) (source : Text) :
    (shape.spans source).Pairwise fun a b => a.stop ≤ b.start :=
  (spansFrom_spec (IsIn.start source)).2

end Shape

/-! ### The index -/

namespace Index

theorem mem_foldl_addSpan {s : Span} {spans found : List Span}
    (h : s ∈ found.foldl addSpan spans) : s ∈ spans ∨ s ∈ found := by
  induction found generalizing spans with
  | nil => exact Or.inl h
  | cons t found ih =>
    rcases ih h with hs | hs
    · simp only [addSpan] at hs
      split at hs
      next => exact Or.inl hs
      next =>
        rcases List.mem_append.mp hs with hs | hs
        · exact Or.inl hs
        · exact Or.inr (by simp_all)
    · exact Or.inr (List.mem_cons_of_mem t hs)

theorem nodup_names_addSpan {spans : List Span} (t : Span)
    (h : (spans.map (·.name)).Nodup) : ((addSpan spans t).map (·.name)).Nodup := by
  by_cases htaken : spans.any (·.name = t.name) = true
  · rwa [addSpan, if_pos htaken]
  · have hnew : t.name ∉ spans.map (·.name) := by
      intro hmem
      obtain ⟨s, hs, hname⟩ := List.mem_map.mp hmem
      exact htaken (List.any_eq_true.mpr ⟨s, hs, by simpa using hname⟩)
    rw [addSpan, if_neg htaken, List.map_append]
    exact h.append (List.nodup_singleton _) (by simpa using hnew)

theorem nodup_names_foldl_addSpan {spans : List Span} (found : List Span)
    (h : (spans.map (·.name)).Nodup) :
    ((found.foldl addSpan spans).map (·.name)).Nodup := by
  induction found generalizing spans with
  | nil => exact h
  | cons t found ih => exact ih (nodup_names_addSpan t h)

/-- The index of shapes keeps every property that holds of the empty index and that taking up the
spans of one shape preserves. -/
theorem ofShapes_induction {P : Index → Prop} {shapes : List Shape} {source : Text}
    (hempty : P empty)
    (hstep : ∀ index shape, P index → P (addShape source index shape)) :
    P (ofShapes shapes source) := by
  have hfold : ∀ index, P index → P (shapes.foldl (addShape source) index) := by
    intro index hindex
    induction shapes generalizing index with
    | nil => exact hindex
    | cons shape shapes ih => exact ih _ (hstep index shape hindex)
  simp only [ofShapes]
  split
  next => exact hempty
  next => exact hfold empty hempty

theorem nodup_names (source : Text) : ((Index.of source).spans.map (·.name)).Nodup :=
  ofShapes_induction (P := fun index => (index.spans.map (·.name)).Nodup) List.nodup_nil
    fun _ shape h => nodup_names_foldl_addSpan (shape.spans source) h

theorem exists_shape_of_mem {source : Text} {s : Span} (h : s ∈ (Index.of source).spans) :
    ∃ shape : Shape, s ∈ shape.spans source := by
  have hall : ∀ s ∈ (Index.of source).spans, ∃ shape : Shape, s ∈ shape.spans source := by
    refine ofShapes_induction
      (P := fun index => ∀ s ∈ index.spans, ∃ shape : Shape, s ∈ shape.spans source) ?_ ?_
    · intro s hs
      cases hs
    · intro index shape hindex s hs
      rcases mem_foldl_addSpan hs with hs | hs
      · exact hindex s hs
      · exact ⟨shape, hs⟩
  exact hall s h

theorem isIn_of_mem {source : Text} {s : Span} (h : s ∈ (Index.of source).spans) :
    s.IsIn source := by
  obtain ⟨shape, hs⟩ := exists_shape_of_mem h
  exact Shape.isIn_of_mem_spans hs

theorem eq_of_name_eq {source : Text} {s t : Span} (hs : s ∈ (Index.of source).spans)
    (ht : t ∈ (Index.of source).spans) (h : s.name = t.name) : s = t :=
  List.inj_on_of_nodup_map (nodup_names source) hs ht h

theorem find?_eq_some_iff {source name : Text} {s : Span} :
    (Index.of source).find? name = some s ↔ s ∈ (Index.of source).spans ∧ s.name = name := by
  constructor
  · intro h
    exact ⟨List.mem_of_find?_eq_some h, by simpa using List.find?_some h⟩
  · rintro ⟨hs, rfl⟩
    have hsome : ((Index.of source).find? s.name).isSome := by
      simp only [find?, List.find?_isSome, decide_eq_true_eq]
      exact ⟨s, hs, rfl⟩
    obtain ⟨t, ht⟩ := Option.isSome_iff_exists.mp hsome
    have htname : t.name = s.name := by simpa using List.find?_some ht
    rw [ht, eq_of_name_eq (List.mem_of_find?_eq_some ht) hs htname]

end Index

end CodeGraft
