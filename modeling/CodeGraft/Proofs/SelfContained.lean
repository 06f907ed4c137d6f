import CodeGraft.Proofs.CutBodies

/-!
# Spans by themselves

A span is found again when its content is read by itself, and nothing else is found there. Its header
is accepted at the start of the content, the body behind the header stops at the end of the content,
and behind that no header is left to be found.
-/

namespace CodeGraft

open Text Pattern Cursor

namespace Cut

def between (a : Cursor) (content : Text) (stop : Cursor) : Cut := ⟨a.offset, content, stop.rest⟩

variable {w : Cut} {a b c stop : Cursor} {content : Text} {label : Label}

theorem same_anew (h : a.Passes content stop)
    (hfresh : ∀ label, label ≠ .indent → a.captured? label = none) :
    (between a content stop).Same a.anew (Cursor.start content) :=
  ⟨h.rest_eq, rfl, rfl, ⟨[], rfl, rfl, rfl⟩, hfresh⟩

theorem Same.capture_indent (h : w.Same a b) (first : Cursor) :
    w.Same a (b.capture first .indent) := by
  refine ⟨h.rest_eq, h.offset_eq, h.before_eq, h.stands, ?_⟩
  intro label hlabel
  rw [captured?_capture_of_ne _ _ hlabel.symm]
  exact h.captured label hlabel

theorem Same.capturedText (h : w.Same a b) (hlabel : label ≠ .indent) :
    b.capturedText label = a.capturedText label := by
  rw [Cursor.capturedText, Cursor.capturedText, h.captured label hlabel, Option.map_map]
  rfl

theorem Same.captured?_none (h : w.Same a b) (hlabel : label ≠ .indent)
    (hnone : a.captured? label = none) : b.captured? label = none := by
  rw [h.captured label hlabel] at hnone
  exact Option.map_eq_none_iff.mp hnone

theorem Same.captured?_first (h : w.Same a b) (hlabel : label ≠ .indent)
    (hfirst : ∃ text, a.captured? label = some ⟨label, w.start, text⟩) :
    ∃ k, b.captured? label = some k ∧ k.start = 0 := by
  obtain ⟨text, htext⟩ := hfirst
  rw [h.captured label hlabel] at htext
  obtain ⟨k, hk, hshift⟩ := Option.map_eq_some_iff.mp htext
  refine ⟨k, hk, ?_⟩
  have hstart : w.start + k.start = w.start := congrArg Capture.start hshift
  omega

theorem Same.offset_of_passes (h : (between a content stop).Same stop b)
    (hcontent : a.Passes content stop) : b.offset = content.length := by
  have hoffset := h.offset_eq
  rw [hcontent.offset_eq] at hoffset
  exact (Nat.add_left_cancel hoffset).symm

/-- A stretch that ends with a closing brace, or where no word goes on, is clean. -/
theorem clean_between (hcontent : a.Passes content stop) (hab : a.Reaches b)
    (h : (∃ front, b.Passes (front ++ ['}']) stop) ∨ stop.rest.head?.any isWordChar = false) :
    (between a content stop).Clean := by
  rcases h with ⟨front, hfront⟩ | hend
  · obtain ⟨lead, hlead⟩ := hab
    have hbrace : content = (lead ++ front) ++ ['}'] := by
      have hpasses := hlead.trans hfront
      rw [← List.append_assoc] at hpasses
      exact List.append_cancel_right (hcontent.rest_eq.symm.trans hpasses.rest_eq)
    intro hword
    have hlast : (between a content stop).content.getLast? = some '}' := by
      rw [between, hbrace, List.getLast?_append, List.getLast?_singleton, Option.some_or]
    rw [hlast] at hword
    cases hword
  · exact fun _ => hend

end Cut

namespace Shape

open Cut

variable {shape : Shape} {source name content : Text} {f : Found} {start : Nat}
  {p : Pattern} {a b c stop : Cursor}

/-- A pattern whose tests do not notice that a clean stretch is cut out. -/
def Cuttable (p : Pattern) : Prop :=
  ∀ w : Cut, w.Clean → p.Every (w.Respects w.content.length) fun _ => True

theorem cuttable_declarationHeader : Cuttable declarationHeader := by
  intro w hclean
  simp [declarationHeader, Every, respects_wordEdge hclean]

theorem cuttable_callHeader : Cuttable callHeader := by
  intro w hclean
  simp [callHeader, Every, respects_wordEdge hclean, respects_of_before]

theorem cuttable_assignedHeader : Cuttable assignedHeader := by
  intro w hclean
  simp [assignedHeader, Every, respects_wordEdge hclean, respects_of_before]

theorem cuttable_boundName : Cuttable boundName := by
  intro w _
  simp [boundName, Every]

theorem reaches_of_attempt_anew (h : p.attempt a.anew some = some b) : a.Reaches b := by
  obtain ⟨passed, hpassed⟩ := (leads_of_attempt h).passes
  exact ⟨passed, hpassed.rest_eq, hpassed.offset_eq⟩

theorem header_cut (hp : Cuttable p) (hfresh : ∀ label, a.captured? label = none)
    (h : p.attempt a.anew some = some b) (hbody : b.Reaches c) (hlt : b.offset < c.offset)
    (hends : (∃ front, b.Passes (front ++ ['}']) c) ∨ c.rest.head?.any isWordChar = false) :
    ∃ content b', a.Passes content c ∧ (between a content c).Clean ∧
      p.attempt (Cursor.start content) some = some b' ∧ (between a content c).Same b b' := by
  have hab := reaches_of_attempt_anew h
  obtain ⟨content, hcontent⟩ := hab.trans hbody
  have hclean := clean_between hcontent hab hends
  have hsame := same_anew hcontent fun label _ => hfresh label
  rw [hcontent.offset_eq] at hlt
  obtain ⟨b', hb', hbb'⟩ := attempt_same (Nat.le_succ _) (hp _ hclean) hsame h hlt
  exact ⟨content, b', hcontent, hclean, hb', hbb'⟩

theorem braced_cut (hp : Cuttable p) (hfresh : ∀ label, a.captured? label = none)
    (h : p.attempt a.anew some = some b) (hbody : braceBody? b = some c) :
    ∃ content, a.Passes content c ∧ ∃ b' c', p.attempt (Cursor.start content) some = some b' ∧
      braceBody? b' = some c' ∧ (between a content c).Same b b' ∧ c'.offset = content.length := by
  obtain ⟨content, b', hcontent, -, hb', hbb'⟩ := header_cut hp hfresh h (braceBody?_reaches hbody)
    (braceBody?_offset_lt hbody) (Or.inl (braceBody?_passes hbody))
  obtain ⟨c', hc', hcc'⟩ := braceBody?_same hbb' hbody (Nat.le_of_eq hcontent.offset_eq)
  exact ⟨content, hcontent, b', c', hb', hc', hbb', hcc'.offset_of_passes hcontent⟩

theorem bound_cut (hp : Cuttable p) (hfresh : ∀ label, a.captured? label = none)
    (h : p.attempt a.anew some = some b) (hbody : boundCallableEnd? b = some c) :
    ∃ content, a.Passes content c ∧ ∃ b' c', p.attempt (Cursor.start content) some = some b' ∧
      boundCallableEnd? b' = some c' ∧ (between a content c).Same b b' ∧
      c'.offset = content.length := by
  obtain ⟨content, b', hcontent, hclean, hb', hbb'⟩ := header_cut hp hfresh h
    (boundCallableEnd?_reaches hbody) (boundCallableEnd?_offset_lt hbody)
    (boundCallableEnd?_clean hbody)
  obtain ⟨c', hc', hcc'⟩ := boundCallableEnd?_same hclean hbb' hbody hcontent.offset_eq
  exact ⟨content, hcontent, b', c', hb', hc', hbb', hcc'.offset_of_passes hcontent⟩

theorem respects_indentedHead {w : Cut} {limit : Nat} :
    indentedHead.Every (w.Respects limit) fun _ => True := by
  simp [indentedHead, indentedWord, definedName, Every]

theorem respects_blockColon {w : Cut} {limit : Nat} :
    blockColon.Every (w.Respects limit) fun _ => True := by
  simp [blockColon]

/-- The head of an indented callable with its block, by itself. It is captured from the start of the text
on, and in front of it nothing is captured as an indentation. -/
theorem block_cut {closed colon : Cursor} {header : Nat}
    (hfresh : ∀ label, label ≠ .indent → a.captured? label = none)
    (h : indentedHead.attempt a some = some b)
    (hclosed : Delimiter.paren.close? .hash b = some closed)
    (hcolon : blockColon.fitAt? closed = some colon) :
    ∃ content, a.Passes content (blockEnd header colon) ∧ ∃ b' closed' colon',
      indentationHeader.attempt (Cursor.start content) some = some b' ∧
      Delimiter.paren.close? .hash b' = some closed' ∧ blockColon.fitAt? closed' = some colon' ∧
      (between a content (blockEnd header colon)).Same b b' ∧
      b'.capturedText .indent = [] ∧ (blockEnd 0 colon').offset = content.length := by
  have hanew : indentedHead.attempt a.anew some = some b := (indentedHead_anew a some).trans h
  have hab := reaches_of_attempt_anew hanew
  have hlt := Delimiter.close?_offset_lt hclosed
  have hle := (fitAt?_reaches hcolon).offset_le
  have hle' := (blockEnd_reaches header colon).offset_le
  obtain ⟨content, hcontent⟩ := (hab.trans (Delimiter.close?_reaches hclosed)).trans
    ((fitAt?_reaches hcolon).trans (blockEnd_reaches header colon))
  have hend : (blockEnd header colon).offset = a.offset + content.length := hcontent.offset_eq
  have hsame := (same_anew hcontent hfresh).capture_indent (Cursor.start content)
  generalize hw : between a content (blockEnd header colon) = w at hsame
  have hstop : w.start + w.content.length = (blockEnd header colon).offset := by
    rw [← hw, hend]
    rfl
  -- The colon may be the last character, so the limit lies behind it.
  have hlimit := Nat.le_refl (w.content.length + 1)
  obtain ⟨b', hb', hbb'⟩ := attempt_same hlimit respects_indentedHead hsame hanew (by omega)
  obtain ⟨closed', hclosed', hsame⟩ := close?_same hbb' hclosed (by omega)
  obtain ⟨colon', hcolon', hsame⟩ := fitAt?_same hlimit respects_blockColon hsame hcolon (by omega)
  refine ⟨content, hcontent, b', closed', colon', ?_, hclosed', hcolon', hw ▸ hbb', ?_, ?_⟩
  · exact indentationHeader_of_indentedHead rfl hb'
  · have hd := leads_of_attempt hb'
    rw [Cursor.capturedText, (captured?_of_indentedHead hd).2.1, captured?_capture_self]
    rfl
  · have hlast := blockEnd_same hsame hstop.symm
    exact Same.offset_of_passes (hw ▸ hlast) hcontent

/-- The text is one span of the shape: a header starts it, and the body behind the header ends it. -/
def Fills (shape : Shape) (name content : Text) : Prop :=
  ∃ header stop, shape.header.attempt (Cursor.start content) some = some header ∧
    shape.bounds? ⟨Cursor.start content, header⟩ = some (0, stop) ∧ stop.offset = content.length ∧
    header.capturedText .name = name

/-- A search finds the span first and has come to the end of the text behind it. -/
theorem spans_of_fills (h : shape.Fills name content) :
    shape.spans content = [⟨name, content, 0⟩] := by
  obtain ⟨header, stop, hheader, hbounds, hend, rfl⟩ := h
  have hstart : (Cursor.start content).captures = [] := rfl
  have hsearch := search?_of_attempt hstart hheader
  have hfound := search?_foundFrom hsearch
  obtain ⟨-, -, hstop⟩ := bounds?_spec hfound hbounds
  have hin := ((IsIn.start content).reaches hfound.stop_reached).reaches hstop
  have hrest : stop.rest = [] := by
    obtain ⟨lead, hcontent, hlead⟩ := hin.source_eq
    rw [hend, hcontent, List.length_append] at hlead
    exact List.length_eq_zero_iff.mp (by omega)
  have hbehind : ∀ bound, shape.spansFrom content bound stop = [] := by
    intro bound
    cases bound with
    | zero => rfl
    | succ bound => rw [spansFrom, search?_of_rest_nil (header_consumes shape) hrest]
  rw [spans, spansFrom, hsearch]
  simp only [hbounds, if_pos hstop.offset_le, hbehind]
  rw [hend, Span.cut, slice_zero_length]
  rfl

/-! ### Spans in their source -/

/-- A header of the shape in a source text, and the bounds of the span that it begins. -/
structure Occurs (shape : Shape) (source : Text) (f : Found) (start : Nat) (stop : Cursor) : Prop where
  isIn : f.start.IsIn source
  fresh : f.start.captures = []
  header : shape.header.attempt f.start some = some f.stop
  bounds : shape.bounds? f = some (start, stop)

theorem Occurs.captured?_start (h : shape.Occurs source f start stop) (label : Label) :
    f.start.captured? label = none := by
  rw [captured?, h.fresh]
  rfl

/-- A span begins at a header, and there stands what a search and the bounds of a span hand on from place
to place. -/
theorem exists_occurs_along {P : Cursor → Prop}
    (hsearch : ∀ {c f}, P c → shape.header.search? c = some f → P f.start ∧ P f.stop)
    (hbody : ∀ {f start stop}, P f.stop → shape.bounds? f = some (start, stop) → P stop)
    {s : Span} {bound : Nat} (hc : c.IsIn source) (hP : P c)
    (h : s ∈ shape.spansFrom source bound c) :
    ∃ f start stop, shape.Occurs source f start stop ∧ P f.start ∧
      s = .cut source (f.stop.capturedText .name) start stop.offset := by
  induction bound generalizing c with
  | zero => cases h
  | succ bound ih =>
    simp only [spansFrom] at h
    split at h
    next => cases h
    next f hfound =>
      have hf := search?_foundFrom hfound
      have hstart := hc.reaches hf.start_reached
      have hstop := hstart.reaches hf.stop_reached
      obtain ⟨hPstart, hPstop⟩ := hsearch hP hfound
      obtain ⟨hheader, hfresh⟩ := search?_attempt hfound
      split at h
      next => exact ih hstop hPstop h
      next start stop hbounds =>
        rcases List.mem_cons.mp h with rfl | h
        · exact ⟨f, start, stop, ⟨hstart, hfresh, hheader, hbounds⟩, hPstart, rfl⟩
        · refine ih ?_ ?_ h
          · split
            next => exact hstop.reaches (bounds?_spec hf hbounds).2.2
            next => exact hstop
          · split
            next => exact hbody hPstop hbounds
            next => exact hPstop

theorem exists_occurs_of_mem {s : Span} {bound : Nat} (hc : c.IsIn source)
    (h : s ∈ shape.spansFrom source bound c) :
    ∃ f start stop, shape.Occurs source f start stop ∧
      s = .cut source (f.stop.capturedText .name) start stop.offset := by
  obtain ⟨f, start, stop, hoccurs, -, hs⟩ := exists_occurs_along
    (P := fun _ => True) (fun _ _ => ⟨trivial, trivial⟩) (fun _ _ => trivial) hc trivial h
  exact ⟨f, start, stop, hoccurs, hs⟩

/-- The stretch between the bounds is one span of the shape by itself. It need not start where the
header does. -/
def StandsAlone (shape : Shape) (f : Found) (start : Nat) (stop : Cursor) : Prop :=
  ∃ a content, f.start.Reaches a ∧ a.offset = start ∧ a.Passes content stop ∧
    shape.Fills (f.stop.capturedText .name) content

theorem standsAlone_of_declaration (h : declaration.Occurs source f start stop) :
    declaration.StandsAlone f start stop := by
  have hbounds := h.bounds
  simp only [bounds?, bind, Option.bind_eq_some_iff, Option.some.injEq, Prod.mk.injEq] at hbounds
  obtain ⟨stop, hbody, rfl, rfl⟩ := hbounds
  obtain ⟨content, hcontent, b', c', hheader, hbody', hsame, hend⟩ :=
    braced_cut cuttable_declarationHeader h.captured?_start (declarationHeader_anew h.header) hbody
  refine ⟨f.start, content, Reaches.refl _, rfl, hcontent, b', c', hheader, ?_, hend, ?_⟩
  · simp only [bounds?, hbody']
    rfl
  · exact hsame.capturedText (by decide)

theorem standsAlone_of_callShaped (h : callShaped.Occurs source f start stop) :
    callShaped.StandsAlone f start stop := by
  have hbounds := h.bounds
  simp only [bounds?] at hbounds
  split at hbounds
  next => cases hbounds
  next hcontrol =>
    simp only [bind, Option.bind_eq_some_iff, Option.some.injEq, Prod.mk.injEq] at hbounds
    obtain ⟨stop, hbody, rfl, rfl⟩ := hbounds
    obtain ⟨content, hcontent, b', c', hheader, hbody', hsame, hend⟩ :=
      braced_cut cuttable_callHeader h.captured?_start (callHeader_anew h.header) hbody
    have hname : b'.capturedText .name = f.stop.capturedText .name :=
      hsame.capturedText (by decide)
    refine ⟨f.start, content, Reaches.refl _, rfl, hcontent, b', c', hheader, ?_, hend, hname⟩
    simp only [bounds?, hname, hcontrol, hbody']
    rfl

theorem fills_of_bindingKeyword (hfresh : ∀ label, a.captured? label = none)
    (h : (bindingKeyword.attempt a fun d => boundName.attempt d some) = some b)
    (hbody : boundCallableEnd? b = some c) :
    (∃ text, b.captured? .keyword = some ⟨.keyword, a.offset, text⟩) ∧
      ∃ content, a.Passes content c ∧ assigned.Fills (b.capturedText .name) content := by
  obtain ⟨d, hd, hrest⟩ := attempt_leads h
  have he := leads_of_attempt hrest
  have hcaptured : ∃ text, b.captured? .keyword = some ⟨.keyword, a.offset, text⟩ := by
    rw [(captured?_of_boundName he).2]
    exact captured?_of_bindingKeyword hd
  have hanew : assignedHeader.attempt a.anew some = some b := by
    rw [assignedHeader_eq, attempt_seq, attempt_alt, bindingKeyword_anew h, Option.some_or]
  obtain ⟨content, hcontent, b', c', hheader, hbody', hsame, hend⟩ :=
    bound_cut cuttable_assignedHeader hfresh hanew hbody
  obtain ⟨k, hk, hstart⟩ := hsame.captured?_first (by decide) hcaptured
  refine ⟨hcaptured, content, hcontent, b', c', hheader, ?_, hend, ?_⟩
  · simp only [bounds?, hbody', hk]
    exact congrArg (fun n => some (n, c')) hstart
  · exact hsame.capturedText (by decide)

theorem fills_of_boundName (hfresh : ∀ label, a.captured? label = none)
    (h : boundName.attempt a some = some b) (hbody : boundCallableEnd? b = some c) :
    b.captured? .keyword = none ∧
      (∃ text, b.captured? .name = some ⟨.name, a.offset, text⟩) ∧
      ∃ content, a.Passes content c ∧ assigned.Fills (b.capturedText .name) content := by
  have hd := leads_of_attempt h
  obtain ⟨hname, hkeyword⟩ := captured?_of_boundName hd
  rw [hfresh] at hkeyword
  obtain ⟨content, hcontent, b', c', hheader, hbody', hsame, hend⟩ :=
    bound_cut cuttable_boundName hfresh ((boundName_begins.attempt_anew a some).trans h) hbody
  obtain ⟨k, hk, hstart⟩ := hsame.captured?_first (by decide) hname
  refine ⟨hkeyword, hname, content, hcontent, b', c', assignedHeader_of_boundName rfl hheader, ?_,
    hend, ?_⟩
  · simp only [bounds?, hbody', hk, hsame.captured?_none (by decide) hkeyword]
    exact congrArg (fun n => some (n, c')) hstart
  · exact hsame.capturedText (by decide)

theorem standsAlone_of_assigned (h : assigned.Occurs source f start stop) :
    assigned.StandsAlone f start stop := by
  have hbounds := h.bounds
  simp only [bounds?, bind, Option.bind_eq_some_iff, Option.some.injEq, Prod.mk.injEq] at hbounds
  obtain ⟨stop, hbody, first, hfirst, rfl, rfl⟩ := hbounds
  have hheader := h.header
  rw [header, assignedHeader_eq, attempt_seq, attempt_alt, Option.or_eq_some_iff] at hheader
  rcases hheader with hkeyword | ⟨-, hmodified⟩
  · obtain ⟨⟨text, htext⟩, content, hcontent, hfills⟩ :=
      fills_of_bindingKeyword h.captured?_start hkeyword hbody
    rw [htext] at hfirst
    cases hfirst
    exact ⟨f.start, content, Reaches.refl _, rfl, hcontent, hfills⟩
  · obtain ⟨d, hd, hname⟩ := attempt_leads hmodified
    obtain ⟨hnone, ⟨text, htext⟩, content, hcontent, hfills⟩ :=
      fills_of_boundName (fun label => (captured?_of_modifiedLine hd label).trans (h.captured?_start label))
        hname hbody
    rw [hnone, htext] at hfirst
    cases hfirst
    exact ⟨d, content, hd.passes, rfl, hcontent, hfills⟩

theorem standsAlone_of_indentation (h : indentation.Occurs source f start stop) :
    indentation.StandsAlone f start stop := by
  have hbounds := h.bounds
  simp only [bounds?, bind, Option.bind_eq_some_iff, Option.some.injEq, Prod.mk.injEq] at hbounds
  obtain ⟨closed, hclosed, colon, hcolon, first, hfirst, rfl, rfl⟩ := hbounds
  have hheader := h.header
  rw [header, indentationHeader_eq, attempt_seq] at hheader
  obtain ⟨d, hstart, hheader⟩ := attempt_leads hheader
  cases hstart
  rw [attempt_seq] at hheader
  obtain ⟨d, hd, hhead⟩ := attempt_leads hheader
  have hreach := hd.passes
  obtain ⟨e, he, rfl⟩ := hd.of_capture
  have hfresh : ∀ label, label ≠ .indent →
      (e.capture f.start .indent).captured? label = none := by
    intro label hlabel
    rw [captured?_capture_of_ne _ _ hlabel.symm, he.captured?_eq (by simp), h.captured?_start]
  have hg := leads_of_attempt hhead
  obtain ⟨text, htext⟩ := (captured?_of_indentedHead hg).1
  rw [htext] at hfirst
  cases hfirst
  obtain ⟨content, hcontent, b', closed', colon', hheader', hclosed', hcolon', hsame, hindent, hend⟩ :=
    block_cut hfresh hhead hclosed hcolon
  obtain ⟨k, hk, hstart⟩ := hsame.captured?_first (by decide) ⟨text, htext⟩
  refine ⟨e.capture f.start .indent, content, hreach, rfl, hcontent, b', _, hheader', ?_, hend, ?_⟩
  · simp only [bounds?, bind, Option.bind_some, hclosed', hcolon', hk, hindent]
    exact congrArg (fun n => some (n, blockEnd 0 colon')) hstart
  · exact hsame.capturedText (by decide)

theorem standsAlone_of_occurs (h : shape.Occurs source f start stop) :
    shape.StandsAlone f start stop := by
  cases shape with
  | declaration => exact standsAlone_of_declaration h
  | assigned => exact standsAlone_of_assigned h
  | callShaped => exact standsAlone_of_callShaped h
  | indentation => exact standsAlone_of_indentation h

theorem fills_of_occurs (h : shape.Occurs source f start stop) :
    shape.Fills (f.stop.capturedText .name) (slice source start stop.offset) := by
  obtain ⟨a, content, hreach, rfl, hcontent, hfills⟩ := standsAlone_of_occurs h
  obtain ⟨lead, hsource, hlead⟩ := (h.isIn.reaches hreach).source_eq
  have hslice : slice source a.offset stop.offset = content := by
    rw [hsource, hcontent.rest_eq, hcontent.offset_eq, hlead, slice_append_append]
  rwa [hslice]

/-- Every span is self-contained: its content by itself has one span of the shape, of the same name,
from the first character to the last. -/
theorem spans_content {s : Span} (h : s ∈ shape.spans source) :
    ∃ t, shape.spans s.content = [t] ∧ t.name = s.name ∧ t.content = s.content ∧ t.start = 0 ∧
      t.stop = s.content.length := by
  obtain ⟨f, start, stop, hoccurs, rfl⟩ := exists_occurs_of_mem (IsIn.start source) h
  exact ⟨_, spans_of_fills (fills_of_occurs hoccurs), rfl, rfl, rfl, Int.zero_add _⟩

/-- A class with a method whose lines are indented unevenly. -/
def classWithMethod : Text :=
  "class Job:\n  def run(self):\n        if self.ready:\n            self.start()\n\nqueue = []\n"

def methodOfClass : Span :=
  ⟨"run", "def run(self):\n        if self.ready:\n            self.start()", 13⟩

theorem spans_content_of_method :
    methodOfClass ∈ indentation.spans classWithMethod ∧
      ∃ t, indentation.spans methodOfClass.content = [t] ∧ t.name = methodOfClass.name ∧
        t.content = methodOfClass.content ∧ t.start = 0 ∧ t.stop = methodOfClass.content.length := by
  have hmem : methodOfClass ∈ indentation.spans classWithMethod := by decide +kernel
  exact ⟨hmem, spans_content hmem⟩

end Shape

end CodeGraft
