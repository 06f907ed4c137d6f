import CodeGraft.Proofs.AboveFeed

/-!
# Spans above a line feed

The headers that end with a parenthesis are found above a line feed as they are without it, and so are
their bodies. The header of a bound callable can end with blanks that reach over the line feed. Behind such
a header there is neither a body nor a further header, whether the line feed stands there or not. So the
spans of a text are those of the text with a line feed below it.
-/

namespace CodeGraft

open Text Pattern Cursor

namespace Shape

variable {header start stop : Nat} {literal : Option Quote}

theorem blockStop_append_blank (ls : List Text) :
    blockStop header literal start stop (ls ++ [[]]) = blockStop header literal start stop ls := by
  induction ls generalizing literal start stop with
  | nil => rfl
  | cons line ls ih => simp only [List.cons_append, blockStop, ih]

theorem blockStop_lt (literal : Option Quote) (ls : List Text) (h : stop < start) :
    blockStop header literal start stop ls < start + linesLength ls := by
  induction ls generalizing literal start stop with
  | nil => exact h
  | cons line ls ih =>
    have hlen := (trimEnd_isPrefix line).length_le
    simp only [blockStop, linesLength]
    split
    · have := ih (openLiteralAfter literal line) (show stop < start + line.length + 1 by omega)
      omega
    · split
      · omega
      · have := ih (openLiteralAfter literal line)
          (show start + (trimEnd line).length < start + line.length + 1 by omega)
        omega

end Shape

namespace Cut

open Shape

variable {text : Text} {a b c d : Cursor} {shape : Shape}

theorem blockEnd_aboveFeed (header : Nat) (hab : (aboveFeed text).Same a b) :
    (aboveFeed text).Same (blockEnd header a) (blockEnd header b) := by
  have hrest : a.rest = b.rest ++ ['\n'] := hab.rest_eq
  by_cases hfeed : '\n' ∈ b.rest
  · obtain ⟨first, below, hb, hfirst⟩ := List.eq_append_cons_of_mem hfeed
    have ha : a.rest = first ++ '\n' :: (below ++ ['\n']) := by rw [hrest, hb, List.append_assoc]; rfl
    rw [blockEnd_of_lines header hfirst ha, blockEnd_of_lines header hfirst hb, lines_append,
      lines_of_not_mem (List.not_mem_nil), blockStop_append_blank]
    refine hab.skip ?_
    have hlt : blockStop header none (first.length + 1) first.length (lines below) <
        first.length + 1 + linesLength (lines below) := blockStop_lt none _ (Nat.lt_succ_self _)
    have hlen := (trimEnd_isPrefix first).length_le
    rw [linesLength_lines] at hlt
    rw [hb, List.length_append, List.length_cons]
    split <;> omega
  · have hlines : blockStop header none (b.rest.length + 1) b.rest.length (lines []) = b.rest.length := rfl
    rw [blockEnd_of_line header hfeed, blockEnd_of_lines header hfeed hrest, hlines]
    have hlen := (trimEnd_isPrefix b.rest).length_le
    refine hab.skip ?_
    split <;> omega

end Cut

namespace Shape

variable {shape : Shape} {source : Text} {a b : Cursor} {f : Found}

/-! ### Headers -/

/-- What stands in front of the equals sign in the header of a bound callable. -/
def boundParts : List Pattern := [
  .alt bindingKeyword modifiedLine,
  .capture .name identifier,
  blanks,
  Pattern.optional (cat [":", oneOrMoreFew (charNotIn "=\n")])]

/-- What stands behind the equals sign in the header of a bound callable. -/
def boundTail : List Pattern := [blanks, Pattern.optional asyncWord]

theorem assignedHeader_eq_parts : assignedHeader = cat (boundParts ++ literal "=" :: boundTail) := rfl

theorem avoids_boundParts : (cat boundParts).Avoids '=' := by
  have hblank : isBlank '=' = false := by decide
  have hname : isNameChar '=' = false := by decide
  rw [avoids_cat]
  simp [boundParts, bindingKeyword, modifiedLine, modifier, anyWord, anyOf, Avoids, avoids_cat,
    avoids_literal, wordEdge, lineStart, someBlanks, oneOrMore, oneOrMoreFew, blanks, identifier,
    Pattern.indentation, Pattern.optional, charIn, charNotIn, hblank, hname]

theorem avoids_boundTail : ∀ x ∈ [':', '(', '='], (cat boundTail).Avoids x := by
  intro x hx
  simp only [List.mem_cons, List.not_mem_nil, or_false] at hx
  have hmarks : isBlank x = false ∧ x ∉ "async".toList := by
    rcases hx with rfl | rfl | rfl <;> decide
  obtain ⟨hblank, hword⟩ := hmarks
  exact ⟨hblank, ⟨⟨avoids_literal hword, ⟨hblank, hblank⟩, trivial⟩, trivial⟩, trivial⟩

/-- The header of a bound callable holds one equals sign, and behind it no mark of a body. -/
theorem leads_assignedHeader (h : assignedHeader.Leads a b) :
    ∃ front back, a.Passes (front ++ '=' :: back) b ∧ '=' ∉ front ∧ ∀ x ∈ [':', '(', '='], x ∉ back := by
  rw [assignedHeader_eq_parts] at h
  obtain ⟨c, hparts, h⟩ := h.of_cat_append
  obtain ⟨d, hequals, htail⟩ := h.of_seq
  obtain ⟨front, hfront, hno⟩ := hparts.passesNo avoids_boundParts
  obtain ⟨back, hback⟩ := htail.passes
  refine ⟨front, back, hfront.trans (hequals.passes_literal.trans hback), hno, fun x hx => ?_⟩
  obtain ⟨back', hback', hno'⟩ := htail.passesNo (avoids_boundTail x hx)
  rwa [List.append_cancel_right (hback.rest_eq.symm.trans hback'.rest_eq)]

theorem header_endsWithout (h : shape ≠ .assigned) : shape.header.endsWithout '\n' = true := by
  cases shape with
  | declaration | callShaped | indentation => rfl
  | assigned => exact absurd rfl h

/-- A text in which nothing but a bound callable's header could begin, and no body. -/
def Spent (rest : Text) : Prop :=
  ∀ front back, rest = front ++ '=' :: back → ∀ x ∈ [':', '(', '='], x ∉ back

theorem bounds?_of_rest_nil (shape : Shape) (h : f.stop.rest = []) : shape.bounds? f = none := by
  have hclose : ∀ (d : Delimiter) (style : CommentStyle), d.close? style f.stop = none := by
    intro d style
    rw [Delimiter.close?, h]
    rfl
  have hbraces : braceBody? f.stop = none := by
    rw [braceBody?, hclose]
    rfl
  have hbound : boundCallableEnd? f.stop = none := boundCallableEnd?_eq_none (by simp [h])
  cases shape <;> simp [bounds?, hclose, hbraces, hbound]

theorem spansFrom_eq_nil_of_spent (bound : Nat) (h : Spent a.rest) :
    assigned.spansFrom source bound a = [] := by
  cases bound with
  | zero => rfl
  | succ bound =>
    rw [spansFrom]
    cases hfound : assigned.header.search? a with
    | none => rfl
    | some f =>
      obtain ⟨lead, hlead⟩ := (search?_foundFrom hfound).start_reached
      obtain ⟨front, back, hpasses, -, -⟩ :=
        leads_assignedHeader (leads_of_attempt (search?_attempt hfound).1)
      have hrest : a.rest = (lead ++ front) ++ '=' :: (back ++ f.stop.rest) := by
        rw [hlead.rest_eq, hpasses.rest_eq]
        simp
      have hmarks : ∀ x ∈ [':', '(', '='], x ∉ f.stop.rest :=
        fun x hx hmem => h _ _ hrest x hx (List.mem_append_right _ hmem)
      have hbody : assigned.bounds? f = none := by
        rw [bounds?, boundCallableEnd?_eq_none hmarks]
        rfl
      have hbehind : assigned.header.search? f.stop = none :=
        search?_eq_none_of_needs assigned.header_needs (hmarks '=' (by decide))
      simp only [hbody]
      cases bound with
      | zero => rfl
      | succ bound => rw [spansFrom, hbehind]

/-- A header whose last blanks reach over the line feed at the end leaves nothing for a body. -/
theorem spent_of_leads {rest : Text} (h : assignedHeader.Leads a b) (hb : b.rest = [])
    (ha : a.rest = rest ++ ['\n']) : Spent rest := by
  obtain ⟨front, back, hpasses, hno, hback⟩ := leads_assignedHeader h
  have hfirst : rest ++ ['\n'] = front ++ '=' :: back := by
    rw [← ha, hpasses.rest_eq, hb, List.append_nil]
  intro front' back' hrest x hx hmem
  have hother : front' ++ '=' :: (back' ++ ['\n']) = front ++ '=' :: back := by
    rw [← hfirst, hrest, List.append_assoc, List.cons_append]
  by_cases hfront' : '=' ∈ front'
  · -- there would be a second equals sign
    obtain ⟨l, r, rfl, hl⟩ := List.eq_append_cons_of_mem hfront'
    rw [List.append_assoc, List.cons_append] at hother
    have heq := eq_of_append_mark hl hno hother
    exact hback '=' (by decide) (heq ▸ List.mem_append_right r (List.mem_cons_self ..))
  · have heq := eq_of_append_mark hfront' hno hother
    exact hback x hx (heq ▸ List.mem_append_left _ hmem)

end Shape

namespace Cut

open Shape

variable {text : Text} {a b : Cursor} {f g : Found} {shape : Shape}

theorem indent_aboveFeed (hf : indentationHeader.Leads f.start f.stop)
    (hg : indentationHeader.Leads g.start g.stop) (hstart : (aboveFeed text).Same f.start g.start) :
    f.stop.capturedText .indent = g.stop.capturedText .indent := by
  obtain ⟨x, rest, hrest, hx, hindent⟩ := leads_indentationHeader hf
  obtain ⟨y, rest', hrest', hy, hindent'⟩ := leads_indentationHeader hg
  have hsame : f.stop.capturedText .indent ++ x :: rest =
      g.stop.capturedText .indent ++ y :: (rest' ++ ['\n']) := by
    rw [← hrest, hstart.rest_eq, hrest', List.append_assoc]
    rfl
  exact (append_cons_unique hsame hindent hindent' hx hy).1

def SameEnds (text : Text) (r s : Nat × Cursor) : Prop := r.1 = s.1 ∧ (aboveFeed text).Same r.2 s.2

theorem bounds?_aboveFeed (hf : shape.header.Leads f.start f.stop) (hg : shape.header.Leads g.start g.stop)
    (hstart : (aboveFeed text).Same f.start g.start) (hstop : (aboveFeed text).Same f.stop g.stop) :
    Option.Rel (SameEnds text) (shape.bounds? f) (shape.bounds? g) := by
  have hname : f.stop.capturedText .name = g.stop.capturedText .name :=
    (hstop.capturedText (by decide)).symm
  have hoffset := offset_of_aboveFeed hstart
  have hbraces : Option.Rel (SameEnds text)
      ((braceBody? f.stop).bind fun stop => some (f.start.offset, stop))
      ((braceBody? g.stop).bind fun stop => some (g.start.offset, stop)) :=
    rel_bind (braceBody?_aboveFeed hstop) fun _ _ hcd => .some ⟨hoffset, hcd⟩
  cases shape with
  | declaration => exact hbraces
  | callShaped =>
    simp only [bounds?, hname]
    split
    next => exact .none
    next => exact hbraces
  | assigned =>
    simp only [bounds?, captured?_of_aboveFeed hstop (show Label.keyword ≠ .indent by decide),
      captured?_of_aboveFeed hstop (show Label.name ≠ .indent by decide)]
    refine rel_bind (boundCallableEnd?_aboveFeed hstop) fun c d hcd => ?_
    cases (g.stop.captured? .keyword).orElse fun _ => g.stop.captured? .name with
    | none => exact .none
    | some first => exact .some ⟨rfl, hcd⟩
  | indentation =>
    simp only [bounds?, captured?_of_aboveFeed hstop (show Label.head ≠ .indent by decide),
      indent_aboveFeed hf hg hstart]
    refine rel_bind (close?_aboveFeed .paren (by decide) hstop) fun c d hcd => ?_
    refine rel_bind (fitAt?_aboveFeed respects_blockColon rfl hcd) fun e e' hsame => ?_
    cases g.stop.captured? .head with
    | none => exact .none
    | some first => exact .some ⟨rfl, blockEnd_aboveFeed _ hsame⟩

/-- A search in both texts finds nothing, or the same stretch; or it finds a stretch that reaches to the end
of the longer text, and in the shorter one it comes to the place where that stretch starts. -/
theorem search?_aboveFeed {p : Pattern}
    (hp : p.Every ((aboveFeed text).Respects (text.length + 1)) fun _ => True)
    (hconsumes : p.consumes = true)
    (hfeed : ∀ c : Cursor, c.rest = ['\n'] → p.search? c = none) (hab : (aboveFeed text).Same a b) :
    (p.search? a = none ∧ p.search? b = none) ∨
    (∃ f g, p.search? a = some f ∧ p.search? b = some g ∧ (aboveFeed text).Same f.start g.start ∧
      (aboveFeed text).Same f.stop g.stop) ∨
    ∃ f c, p.search? a = some f ∧ p.search? b = p.search? c ∧ (aboveFeed text).Same f.start c ∧
      f.stop.rest = [] := by
  induction hrest : b.rest generalizing a b with
  | nil =>
    have ha : a.rest = ['\n'] := by
      rw [hab.rest_eq, hrest]
      rfl
    exact Or.inl ⟨hfeed a ha, search?_of_rest_nil hconsumes hrest⟩
  | cons y rest ih =>
    have ha : a.rest = y :: (rest ++ ['\n']) := by
      rw [hab.rest_eq, hrest]
      rfl
    have hagree : (aboveFeed text).Agree (text.length + 1) (p.attempt a.fresh some)
        (p.attempt b.fresh some) :=
      attempt_agree (Nat.le_refl _) hp hab.fresh forward_some fun _ _ hcd => .some hcd
    rw [search?_cons ha]
    cases hr : p.attempt a.fresh some with
    | none =>
      have hnext : b.next.rest = rest := by simp [Cursor.next, hrest]
      rw [search?_cons hrest, hagree.of_none hr]
      exact ih (hab.next (by simp [hrest])) hnext
    | some stop =>
      by_cases hlt : stop.offset < 0 + (text.length + 1)
      · obtain ⟨e, he, hsame⟩ := hagree.of_some stop hr hlt
        rw [search?_cons hrest, he]
        exact Or.inr (Or.inl ⟨_, _, rfl, rfl, hab.fresh, hsame⟩)
      · have hnil := rest_eq_nil_of_lt hab.fresh (leads_of_attempt hr).passes (by omega)
        exact Or.inr (Or.inr ⟨_, b.fresh, rfl, rfl, hab.fresh, hnil⟩)

theorem cut_aboveFeed (name : Text) (start : Nat) {r s : Cursor} (h : (aboveFeed text).Same r s) :
    Span.cut (text ++ ['\n']) name start r.offset = Span.cut text name start s.offset := by
  have hle : s.offset ≤ text.length := by
    have hcontent : s.offset + s.rest.length = text.length := h.length_eq
    omega
  rw [Span.cut, Span.cut, offset_of_aboveFeed h, slice_append_of_le _ hle]

theorem spansFrom_aboveFeed (shape : Shape) (bound : Nat) (hab : (aboveFeed text).Same a b) :
    shape.spansFrom (text ++ ['\n']) bound a = shape.spansFrom text bound b := by
  induction bound generalizing a b with
  | zero => rfl
  | succ bound ih =>
    have hfeed : ∀ c : Cursor, c.rest = ['\n'] → shape.header.search? c = none := by
      intro c hc
      refine search?_eq_none_of_needs shape.header_needs ?_
      rw [hc]
      cases shape <;> decide
    rw [spansFrom]
    rcases search?_aboveFeed (header_respects_aboveFeed shape) shape.header_consumes hfeed hab with
      ⟨ha, hb⟩ | ⟨f, g, ha, hb, hstart, hstop⟩ | ⟨f, c, ha, hb, hstart, hnil⟩
    · rw [spansFrom, ha, hb]
    · have hf := leads_of_attempt (search?_attempt ha).1
      have hg := leads_of_attempt (search?_attempt hb).1
      rw [spansFrom, ha, hb]
      dsimp only
      generalize hr : shape.bounds? f = r
      generalize hs : shape.bounds? g = s
      have hbounds := bounds?_aboveFeed hf hg hstart hstop
      rw [hr, hs] at hbounds
      cases hbounds with
      | none => exact ih hstop
      | @some r s hends =>
        obtain ⟨hfirst, hlast⟩ := hends
        have hname : f.stop.capturedText .name = g.stop.capturedText .name :=
          (hstop.capturedText (by decide)).symm
        dsimp only
        rw [hname, hfirst, cut_aboveFeed _ _ hlast, offset_of_aboveFeed hstop, offset_of_aboveFeed hlast]
        split
        next => rw [ih hlast]
        next => rw [ih hstop]
    · have hf := leads_of_attempt (search?_attempt ha).1
      have hbehind : shape.spansFrom (text ++ ['\n']) bound f.stop = [] := by
        cases bound with
        | zero => rfl
        | succ bound => rw [spansFrom, search?_of_rest_nil shape.header_consumes hnil]
      have hskip : shape.spansFrom text (bound + 1) b = shape.spansFrom text (bound + 1) c := by
        rw [spansFrom, spansFrom, hb]
      rw [ha, hskip]
      simp only [bounds?_of_rest_nil shape hnil, hbehind]
      by_cases hshape : shape = .assigned
      · subst hshape
        exact (spansFrom_eq_nil_of_spent _ (spent_of_leads hf hnil hstart.rest_eq)).symm
      · exact absurd hnil (rest_ne_nil_of_leads hstart hf (header_endsWithout hshape))

end Cut

namespace Shape

theorem spans_aboveFeed (shape : Shape) (text : Text) :
    shape.spans (text ++ ['\n']) = shape.spans text := by
  rw [spans, Cut.spansFrom_aboveFeed shape _ (Cut.aboveFeed_start text), List.length_append,
    List.length_singleton]
  exact spansFrom_eq_of_lt (by omega)

end Shape

end CodeGraft
