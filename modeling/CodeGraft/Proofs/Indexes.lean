import CodeGraft.Proofs.CutBodies

/-!
# What an index holds

Each header takes the search for a shape's spans further, so the search ends by itself. Each span
that it finds has a character and is as long as its ends are apart. The index holds the spans of its
shapes one after another, but of those with one name only the first.
-/

namespace CodeGraft

open Text Pattern Cursor

/-- A span with a character in it that is the stretch of its source between its ends. -/
structure Span.IsProperIn (source : Text) (s : Span) : Prop extends s.IsIn source where
  start_lt_stop : s.start < s.stop

namespace Shape

variable {shape : Shape} {source : Text} {c : Cursor} {f : Found}

theorem offset_lt_of_header (h : shape.header.search? c = some f) : c.offset < f.stop.offset := by
  have hfirst := (search?_foundFrom h).start_reached.offset_le
  have hlast := (leads_of_attempt (search?_attempt h).1).offset_lt (header_consumes shape)
  omega

theorem bounds?_offset_lt {start : Nat} {stop : Cursor} (h : shape.bounds? f = some (start, stop)) :
    f.stop.offset < stop.offset := by
  cases shape with
  | declaration =>
    simp only [bounds?, bind, Option.bind_eq_some_iff, Option.some.injEq, Prod.mk.injEq] at h
    obtain ⟨_, hbody, -, rfl⟩ := h
    exact braceBody?_offset_lt hbody
  | assigned =>
    simp only [bounds?, bind, Option.bind_eq_some_iff, Option.some.injEq, Prod.mk.injEq] at h
    obtain ⟨_, hbody, _, -, -, rfl⟩ := h
    exact boundCallableEnd?_offset_lt hbody
  | callShaped =>
    simp only [bounds?] at h
    split at h
    next => cases h
    next =>
      simp only [bind, Option.bind_eq_some_iff, Option.some.injEq, Prod.mk.injEq] at h
      obtain ⟨_, hbody, -, rfl⟩ := h
      exact braceBody?_offset_lt hbody
  | indentation =>
    simp only [bounds?, bind, Option.bind_eq_some_iff, Option.some.injEq, Prod.mk.injEq] at h
    obtain ⟨closed, hclosed, colon, hcolon, _, -, -, rfl⟩ := h
    have hcloser := Delimiter.close?_offset_lt hclosed
    have hcolon := (fitAt?_reaches hcolon).offset_le
    exact Nat.lt_of_lt_of_le (by omega) (blockEnd_reaches _ colon).offset_le

theorem start_lt_stop_of_mem_spansFrom {bound : Nat} {s : Span} (hc : c.IsIn source)
    (h : s ∈ shape.spansFrom source bound c) : s.start < s.stop := by
  induction bound generalizing c with
  | zero => cases h
  | succ bound ih =>
    simp only [spansFrom] at h
    split at h
    next => cases h
    next f hfound =>
      have hf := search?_foundFrom hfound
      have hfstop := hc.reaches (hf.start_reached.trans hf.stop_reached)
      split at h
      next => exact ih hfstop h
      next start stop hbounds =>
        obtain ⟨-, hstart, hstop⟩ := bounds?_spec hf hbounds
        have hlt := bounds?_offset_lt hbounds
        have hin := hfstop.reaches hstop
        rw [if_pos hlt.le] at h
        rcases List.mem_cons.mp h with rfl | h
        · rw [Span.cut_stop (by omega) hin.offset_le]
          exact Int.ofNat_lt.mpr (by omega)
        · exact ih hin h

theorem isProperIn_of_mem_spans {s : Span} (h : s ∈ shape.spans source) : s.IsProperIn source :=
  ⟨isIn_of_mem_spans h, start_lt_stop_of_mem_spansFrom (IsIn.start source) h⟩

/-- The spans of a shape at or behind a place, as far as the length of each agrees with its ends. -/
def checkedFrom (shape : Shape) (source : Text) :
    (bound : Nat) → Cursor → Except SpanLengthError (List Span)
  | 0, _ => .ok []
  | bound + 1, c =>
    match shape.header.search? c with
    | none => .ok []
    | some found =>
      match shape.bounds? found with
      | none => checkedFrom shape source bound found.stop
      | some (start, stop) => do
        let span ← Span.ofBounds? (found.stop.capturedText .name)
          (slice source start stop.offset) start stop.offset
        let others ← checkedFrom shape source bound
          (if found.stop.offset ≤ stop.offset then stop else found.stop)
        return span :: others

/-- Every length agrees with its ends, and any two bounds beyond the text's length give the same. -/
theorem checkedFrom_eq {bound bound' : Nat} (hc : c.IsIn source)
    (h : source.length < c.offset + bound) (h' : source.length < c.offset + bound') :
    shape.checkedFrom source bound c = .ok (shape.spansFrom source bound' c) := by
  have hle := hc.offset_le
  induction bound generalizing c bound' with
  | zero => omega
  | succ bound ih =>
    obtain ⟨bound', rfl⟩ : ∃ n, bound' = n + 1 := ⟨bound' - 1, by omega⟩
    rw [checkedFrom, spansFrom]
    cases hfound : shape.header.search? c with
    | none => rfl
    | some f =>
      have hf := search?_foundFrom hfound
      have hfstop := hc.reaches (hf.start_reached.trans hf.stop_reached)
      have hfurther := offset_lt_of_header hfound
      dsimp only
      cases hbounds : shape.bounds? f with
      | none => exact ih hfstop (by omega) (by omega) hfstop.offset_le
      | some bounds =>
        obtain ⟨start, stop⟩ := bounds
        obtain ⟨-, hstart, hstop⟩ := bounds?_spec hf hbounds
        have hlt := bounds?_offset_lt hbounds
        have hin := hfstop.reaches hstop
        have hlength : (stop.offset : Int) - start = (slice source start stop.offset).length := by
          have := hin.offset_le
          rw [slice_length]
          omega
        have hrest : shape.checkedFrom source bound stop = .ok (shape.spansFrom source bound' stop) :=
          ih hin (by omega) (by omega) hin.offset_le
        dsimp only
        rw [Span.ofBounds?, if_pos hlength, if_pos hlt.le, hrest]
        rfl

end Shape

/-! ### The index -/

namespace Index

/-- Taking up spans leaves out those whose name stands before them. -/
theorem foldl_addSpan (spans found : List Span) :
    found.foldl addSpan spans = spans ++
      (found.filter fun t => !spans.any (·.name = t.name)).eraseDupsBy (·.name = ·.name) := by
  induction found generalizing spans with
  | nil => simp
  | cons t found ih =>
    rw [List.foldl_cons, ih]
    by_cases htaken : spans.any (·.name = t.name) = true
    · rw [addSpan, if_pos htaken, List.filter_cons_of_neg (by simp [htaken])]
    · rw [addSpan, if_neg htaken, List.filter_cons_of_pos (by simpa using htaken),
        List.eraseDupsBy_cons, List.filter_filter, List.append_assoc, List.singleton_append]
      congr 3
      refine List.filter_congr fun s _ => ?_
      simp [Bool.and_comm, eq_comm]

theorem mem_names_foldl_addSpan {name : Text} {spans found : List Span} :
    name ∈ (found.foldl addSpan spans).map (·.name) ↔
      name ∈ spans.map (·.name) ∨ name ∈ found.map (·.name) := by
  induction found generalizing spans with
  | nil => simp
  | cons t found ih =>
    have hstep : name ∈ (addSpan spans t).map (·.name) ↔
        name ∈ spans.map (·.name) ∨ name = t.name := by
      by_cases htaken : spans.any (·.name = t.name) = true
      · obtain ⟨s, hs, hname⟩ := List.any_eq_true.mp htaken
        have hmem : t.name ∈ spans.map (·.name) :=
          List.mem_map.mpr ⟨s, hs, of_decide_eq_true hname⟩
        rw [addSpan, if_pos htaken]
        exact ⟨.inl, fun h => h.elim id fun heq => heq ▸ hmem⟩
      · rw [addSpan, if_neg htaken]
        simp [eq_comm]
    rw [List.foldl_cons, ih, hstep, List.map_cons, List.mem_cons, or_assoc]

theorem spans_foldl_addShape (shapes : List Shape) (source : Text) (index : Index) :
    (shapes.foldl (addShape source) index).spans =
      (shapes.flatMap (·.spans source)).foldl addSpan index.spans := by
  induction shapes generalizing index with
  | nil => rfl
  | cons shape shapes ih => rw [List.foldl_cons, ih, List.flatMap_cons, List.foldl_append, addShape]

theorem spans_ofShapes (shapes : List Shape) (source : Text) :
    (ofShapes shapes source).spans = (shapes.flatMap (·.spans source)).foldl addSpan [] := by
  rw [ofShapes]
  split
  next hnil =>
    obtain rfl : source = [] := by simpa using hnil
    have hnone : shapes.flatMap (·.spans []) = [] := by
      refine List.flatMap_eq_nil_iff.mpr fun shape _ => ?_
      rw [Shape.spans, Shape.spansFrom, search?_of_rest_nil (Shape.header_consumes shape) rfl]
    rw [hnone]
    rfl
  next => exact spans_foldl_addShape shapes source empty

/-- Each shape's search ends by itself, and makes only spans whose lengths agree with their ends.
The spans of a shape stand in the order of the source and share no character. The index holds the
spans of the shapes in their order without those whose name one before them has, so that no name is
lost. -/
theorem ofShapes_spans (shapes : List Shape) (source : Text) :
    (∀ shape : Shape,
      (∀ bound > source.length,
        shape.checkedFrom source bound (.start source) = .ok (shape.spans source)) ∧
      (∀ s ∈ shape.spans source, s.IsProperIn source) ∧
      (shape.spans source).Pairwise fun a b => a.start < b.start ∧ a.stop ≤ b.start) ∧
    (ofShapes shapes source).spans =
      (shapes.flatMap (·.spans source)).eraseDupsBy (·.name = ·.name) ∧
    (∀ s ∈ (ofShapes shapes source).spans, s.IsProperIn source) ∧
    ((ofShapes shapes source).spans.map (·.name)).Nodup ∧
    ∀ shape ∈ shapes, ∀ s ∈ shape.spans source,
      ∃ t ∈ (ofShapes shapes source).spans, t.name = s.name := by
  have hproper : ∀ shape : Shape, ∀ s ∈ shape.spans source, s.IsProperIn source :=
    fun shape s hs => Shape.isProperIn_of_mem_spans hs
  have hindex := spans_ofShapes shapes source
  refine ⟨fun shape => ⟨fun bound hbound => ?_, hproper shape, ?_⟩, ?_, ?_, ?_, ?_⟩
  · refine Shape.checkedFrom_eq (IsIn.start source) ?_ ?_
    · simpa [Cursor.start] using hbound
    · simp [Cursor.start]
  · refine (Shape.spans_pairwise shape source).imp_of_mem fun {a b} ha _ hab => ⟨?_, hab⟩
    have := (hproper shape a ha).start_lt_stop
    omega
  · rw [hindex, foldl_addSpan]
    simp
  · intro s hs
    rw [hindex] at hs
    obtain ⟨shape, -, hs⟩ := List.mem_flatMap.mp ((mem_foldl_addSpan hs).resolve_left (by simp))
    exact hproper shape s hs
  · rw [hindex]
    exact nodup_names_foldl_addSpan _ List.nodup_nil
  · intro shape hshape s hs
    have hfound : s ∈ shapes.flatMap (·.spans source) := List.mem_flatMap.mpr ⟨shape, hshape, hs⟩
    rw [hindex]
    exact List.mem_map.mp (mem_names_foldl_addSpan.mpr (.inr (List.mem_map_of_mem hfound)))

end Index

end CodeGraft
