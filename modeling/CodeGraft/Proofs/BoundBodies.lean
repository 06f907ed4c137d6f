import CodeGraft.Proofs.LiveCode
import CodeGraft.Proofs.NeededChars
import CodeGraft.Proofs.SelfContained

/-!
# Bodies of bound callables

A callable that is bound to a name ends with the brace that closes its block, or with the line of its
expression. A block is not cut in the middle of a bracket that is closed before a brace around it is. An
expression is cut at the end of the line, whatever is open there.
-/

namespace CodeGraft

open Text Pattern Cursor

namespace Delimiter

variable {d : Delimiter} {code : Text} {start b e i j : Nat}

/-- In a block a bracket is closed in front of the brace that closes the block, if the braces up to its
closer balance. -/
theorem le_of_inside_block (hblock : brace.Balances (slice code (b + 1) e)) (he : code[e]? = some '}')
    (hb : b < i) (hi : i < e) (hbetween : brace.Balances (slice code (i + 1) j)) : j ≤ e := by
  by_contra hlt
  have hcloser : brace.surplus ['}'] = -1 := by decide
  have hsplit := slice_append_slice code (show b + 1 ≤ i + 1 by omega) (show i + 1 ≤ e by omega)
  have hfront := hblock.never_below (slice code (b + 1) (i + 1)) ⟨_, hsplit⟩
  have hsettled := hblock.settled
  rw [← hsplit, surplus_append] at hsettled
  -- up to the brace that closes the block, one brace more is closed than opened
  have hclosed := hbetween.never_below (slice code (i + 1) (e + 1))
    ⟨_, slice_append_slice code (by omega) (by omega)⟩
  rw [← slice_append_slice code (show i + 1 ≤ e by omega) (show e ≤ e + 1 by omega), slice_succ he,
    surplus_append, hcloser] at hclosed
  omega

theorem lt_of_balances (hd : d.opener ≠ d.closer) (hhead : d.Balances (slice code start b))
    (hstart : start ≤ i) (hi : i < b) (hopens : code[i]? = some d.opener)
    (hbetween : d.Balances (slice code (i + 1) j)) : j < b := by
  by_contra hle
  have hopener : d.surplus [d.opener] = 1 := by rw [surplus_singleton d hd, if_pos rfl]
  have hsplit := slice_append_slice code hstart (Nat.le_of_lt hi)
  have hfront := hhead.never_below (slice code start i) ⟨_, hsplit⟩
  have hbehind := hbetween.never_below (slice code (i + 1) b)
    ⟨_, slice_append_slice code (by omega) (by omega)⟩
  have hsettled := hhead.settled
  rw [← hsplit, ← slice_append_slice code (show i ≤ i + 1 by omega) hi, slice_succ hopens,
    surplus_append, surplus_append, hopener] at hsettled
  omega

end Delimiter

def EndsWithArrow (head : Text) : Prop :=
  ∃ front blanks, head = front ++ '=' :: '>' :: blanks ∧ isBlankText blanks = true

def EndsWithLambda (head : Text) : Prop :=
  ∃ front params blanks, head = front ++ ("lambda" ++ (params ++ ':' :: blanks)) ∧
    (∀ c ∈ params, c ≠ ':' ∧ c ≠ '\n') ∧ ∀ c ∈ blanks, c = ' ' ∨ c = '\t'

/-- The body of the callable is the block that opens at an offset. -/
structure BlockBody (source : Text) (s : Span) (b : Nat) : Prop where
  starts : s.start ≤ b
  head : EndsWithArrow (slice source s.start.toNat b) ∨
    "function".toList <:+: slice source s.start.toNat b
  opens : source[b]? = some '{'
  closes : ∃ e, closingIndex .slashes source b = .ok (some e) ∧ s.stop = e + 1

/-- The body of the callable is the expression that starts at an offset and ends with its line. -/
structure LineBody (source : Text) (s : Span) (b : Nat) : Prop where
  starts : s.start ≤ b
  head : EndsWithLambda (slice source s.start.toNat b) ∨
    (EndsWithArrow (slice source s.start.toNat b) ∧ source[b]? ≠ some '{')
  inside : b < s.stop
  ends : s.stop = b + (trimEnd (slice source b (lineEnd source b))).length

namespace Shape

variable {source : Text} {a b c stop : Cursor} {s : Span}

theorem leads_arrow {ps : List Pattern} (hps : (cat ps).Avoids '=')
    (h : (cat (ps ++ [literal "=>"] ++ [blanks])).Leads a b) :
    ∃ front gap, a.Passes (front ++ '=' :: '>' :: gap) b ∧ isBlankText gap = true ∧ '=' ∉ front := by
  obtain ⟨d, h, hgap⟩ := h.of_cat_concat
  obtain ⟨e, h, harrow⟩ := h.of_cat_concat
  obtain ⟨front, hfront, hno⟩ := h.passesNo hps
  obtain ⟨gap, hgap, hblank⟩ := hgap.passes_many
  exact ⟨front, gap, hfront.trans (harrow.passes_literal.trans hgap), List.all_eq_true.mpr hblank, hno⟩

/-- What stands in front of an arrow behind parameters in parentheses. -/
def arrowParts : List Pattern :=
  [blanks, Pattern.optional (cat [":", oneOrMore (charNotIn "=;\x7b\x7d\n")])]

theorem arrow_eq : arrow = cat (arrowParts ++ [literal "=>"] ++ [blanks]) := rfl

theorem bareParameterArrow_eq :
    bareParameterArrow = cat ([identifier, blanks] ++ [literal "=>"] ++ [blanks]) := rfl

theorem avoids_arrowParts : (cat arrowParts).Avoids '=' := by
  have hblank : isBlank '=' = false := by decide
  rw [avoids_cat]
  simp [arrowParts, Avoids, avoids_cat, avoids_literal, blanks, oneOrMore, charNotIn, Pattern.optional,
    hblank]

theorem avoids_bareParameter : (cat [identifier, blanks]).Avoids '=' := by
  have hblank : isBlank '=' = false := by decide
  have hname : isNameChar '=' = false := by decide
  rw [avoids_cat]
  simp [Avoids, blanks, identifier, hblank, hname]

theorem passes_of_arrowHead? (h : arrowHead? a = some b) :
    ∃ front gap, a.Passes (front ++ '=' :: '>' :: gap) b ∧ isBlankText gap = true := by
  rcases arrowHead?_eq_some_iff.mp h with ⟨-, closed, hclosed, harrow⟩ | ⟨-, harrow⟩
  · obtain ⟨params, hparams⟩ := (Reaches.next a).trans (Delimiter.close?_reaches hclosed)
    rw [arrow_eq] at harrow
    obtain ⟨front, gap, hpasses, hblank, -⟩ := leads_arrow avoids_arrowParts (leads_of_attempt harrow)
    refine ⟨params ++ front, gap, ?_, hblank⟩
    rw [List.append_assoc]
    exact hparams.trans ⟨hpasses.rest_eq, hpasses.offset_eq⟩
  · rw [bareParameterArrow_eq] at harrow
    obtain ⟨front, gap, hpasses, hblank, -⟩ :=
      leads_arrow avoids_bareParameter (leads_of_attempt harrow)
    exact ⟨front, gap, ⟨hpasses.rest_eq, hpasses.offset_eq⟩, hblank⟩

theorem passes_of_lambdaHead (h : lambdaHead.Leads a b) :
    ∃ params gap, a.Passes ("lambda" ++ (params ++ ':' :: gap)) b ∧
      (∀ x ∈ params, x ≠ ':' ∧ x ≠ '\n') ∧ ∀ x ∈ gap, x = ' ' ∨ x = '\t' := by
  obtain ⟨c, hword, h⟩ := h.of_seq
  obtain ⟨d, hedge, h⟩ := h.of_seq
  obtain ⟨e, hparams, h⟩ := h.of_seq
  obtain ⟨f, hcolon, h⟩ := h.of_seq
  obtain ⟨g, hgap, hend⟩ := h.of_seq
  cases hedge
  cases hend
  obtain ⟨params, hparams, hall⟩ := hparams.passes_many
  obtain ⟨gap, hgap, hblank⟩ := hgap.passes_many
  refine ⟨params, gap, hword.passes_literal.trans (hparams.trans (hcolon.passes_literal.trans hgap)),
    fun x hx => ?_, fun x hx => by simpa using hblank x hx⟩
  simpa using hall x hx

theorem passes_of_braceBody? (h : braceBody? a = some stop) :
    ∃ head body opened front, a.Passes head body ∧ body.Passes ['{'] opened ∧
      opened.Passes (front ++ ['}']) stop ∧
      Delimiter.brace.closingFrom .slashes .code 1 opened.rest = some front.length := by
  simp only [braceBody?, bind, Option.bind_eq_some_iff] at h
  obtain ⟨closed, hclosed, opened, hopened, hbody⟩ := h
  obtain ⟨params, hparams⟩ := Delimiter.close?_reaches hclosed
  have hopening : bodyOpening =
      cat ([.many (.alt (charNotIn "\x7b\x7d;=()\n")
        (cat ["(", .many (charNotIn "()\x7b\x7d;\n"), ")"])), blanks] ++ [literal "\x7b"]) := rfl
  have hleads := leads_of_attempt hopened
  rw [hopening] at hleads
  obtain ⟨body, hresult, hbrace⟩ := hleads.of_cat_concat
  obtain ⟨result, hresult⟩ := hresult.passes
  obtain ⟨front, hfront, hcloses⟩ := Delimiter.close?_front hbody
  exact ⟨params ++ result, body, opened, front, hparams.trans ⟨hresult.rest_eq, hresult.offset_eq⟩,
    hbrace.passes_literal, hfront, hcloses⟩

/-- A bound callable has a block behind an arrow or behind the parameters of a function, or an expression
behind an arrow or behind the head of a lambda. -/
theorem body_of_boundCallableEnd? (h : boundCallableEnd? a = some stop) :
    (∃ head body opened front, a.Passes head body ∧
      (EndsWithArrow head ∨ "function".toList <:+: head) ∧ body.Passes ['{'] opened ∧
      opened.Passes (front ++ ['}']) stop ∧
      Delimiter.brace.closingFrom .slashes .code 1 opened.rest = some front.length) ∨
    (∃ head body, a.Passes head body ∧
      (EndsWithLambda head ∨ (EndsWithArrow head ∧ body.rest.head? ≠ some '{')) ∧
      expressionEnd? body = some stop) := by
  rcases boundCallableEnd?_eq_some_iff.mp h with
    ⟨body, hhead, hbody⟩ | ⟨-, opened, hopened, hbody⟩ | ⟨-, -, body, hhead, hbody⟩
  · obtain ⟨params, gap, hpasses, hparams, hgap⟩ := passes_of_lambdaHead (leads_of_attempt hhead)
    exact Or.inr ⟨_, body, ⟨hpasses.rest_eq, hpasses.offset_eq⟩,
      Or.inl ⟨[], params, gap, rfl, hparams, hgap⟩, hbody⟩
  · have hleads := leads_of_attempt hopened
    obtain ⟨c, hword, hrest⟩ := hleads.of_seq
    obtain ⟨more, hmore⟩ := hrest.passes
    obtain ⟨head, body, behind, front, hhead, hbrace, hfront, hcloses⟩ := passes_of_braceBody? hbody
    have hpasses := hword.passes_literal.trans (hmore.trans hhead)
    exact Or.inl ⟨_, body, behind, front, ⟨hpasses.rest_eq, hpasses.offset_eq⟩,
      Or.inr ⟨[], more ++ head, rfl⟩, hbrace, hfront, hcloses⟩
  · obtain ⟨front, gap, hpasses, hblank⟩ := passes_of_arrowHead? hhead
    have harrow : EndsWithArrow (front ++ '=' :: '>' :: gap) := ⟨front, gap, rfl, hblank⟩
    rcases hbody with ⟨hbrace, hbody⟩ | ⟨hother, hbody⟩
    · obtain ⟨rest, hrest⟩ := List.head?_eq_some_iff.mp hbrace
      obtain ⟨inside, hinside, hcloses⟩ := Delimiter.close?_front hbody
      have hnext := Passes.next body
      rw [hrest, List.take_succ_cons, List.take_zero] at hnext
      exact Or.inl ⟨_, body, body.next, inside, hpasses, Or.inl harrow, hnext, hinside, hcloses⟩
    · exact Or.inr ⟨_, body, hpasses, Or.inr ⟨harrow, hother⟩, hbody⟩

theorem slice_to_lineEnd {text lead rest : Text} (h : text = lead ++ rest) :
    slice text lead.length (lineEnd text lead.length) = rest.takeWhile (· ≠ '\n') := by
  rw [h, lineEnd_append]
  conv => lhs; arg 1; rw [← List.takeWhile_append_dropWhile (p := (· ≠ '\n')) (l := rest)]
  exact slice_append_append ..

theorem slice_passes {passed : Text} {start : Nat} (ha : a.IsIn source) (h : a.Passes passed b)
    (hstart : start ≤ a.offset) :
    slice source start b.offset = slice source start a.offset ++ passed := by
  obtain ⟨lead, hsource, hlead⟩ := ha.source_eq
  have hpassed : slice source a.offset b.offset = passed := by
    rw [hsource, h.rest_eq, h.offset_eq, hlead, slice_append_append]
  rw [← slice_append_slice source hstart h.offset_le, hpassed]

theorem exists_body_of_mem (h : s ∈ assigned.spans source) :
    (∃ b, BlockBody source s b) ∨ ∃ b, LineBody source s b := by
  obtain ⟨f, start, stop, hoccurs, rfl⟩ := exists_occurs_of_mem (IsIn.start source) h
  have hfound := attempt_foundFrom hoccurs.fresh hoccurs.header
  obtain ⟨-, hstart, hreaches⟩ := bounds?_spec hfound hoccurs.bounds
  have hheader := hoccurs.isIn.reaches hfound.stop_reached
  have hstop := hheader.reaches hreaches
  have hbounds := hoccurs.bounds
  simp only [bounds?, bind, Option.bind_eq_some_iff, Option.some.injEq, Prod.mk.injEq] at hbounds
  obtain ⟨stop, hbody, first, -, rfl, rfl⟩ := hbounds
  have hspanStop : (Span.cut source (f.stop.capturedText .name) first.start stop.offset).stop =
      stop.offset :=
    Span.cut_stop (hstart.trans hreaches.offset_le) hstop.offset_le
  have hstartNat : (Span.cut source (f.stop.capturedText .name) first.start stop.offset).start.toNat =
      first.start := rfl
  rcases body_of_boundCallableEnd? hbody with
    ⟨head, body, opened, front, hhead, hkind, hbrace, hfront, hcloses⟩ |
      ⟨head, body, hhead, hkind, hexpression⟩
  · left
    have hin := hheader.reaches ⟨head, hhead⟩
    obtain ⟨lead, hsource, hlead⟩ := hin.source_eq
    have hdrop : source.drop body.offset = '{' :: opened.rest := by
      rw [hlead, hsource, List.drop_left, hbrace.rest_eq]
      rfl
    refine ⟨body.offset, ?_, ?_, ?_, body.offset + 1 + front.length, ?_, ?_⟩
    · exact Int.ofNat_le.mpr (hstart.trans hhead.offset_le)
    · rw [hstartNat, slice_passes hheader hhead hstart]
      rcases hkind with ⟨words, gap, rfl, hgap⟩ | hfunction
      · exact Or.inl ⟨_ ++ words, gap, (List.append_assoc ..).symm, hgap⟩
      · exact Or.inr (hfunction.trans (List.suffix_append ..).isInfix)
    · rw [← List.head?_drop, hdrop]
      rfl
    · have hopener : Delimiter.ofOpener? '{' = some .brace := by decide
      simp only [closingIndex, hdrop, hopener, hcloses, Option.map_some]
    · rw [hspanStop, hfront.offset_eq, hbrace.offset_eq]
      simp
      omega
  · right
    have hin := hheader.reaches ⟨head, hhead⟩
    obtain ⟨lead, hsource, hlead⟩ := hin.source_eq
    have hlt := expressionEnd?_offset_lt hexpression
    refine ⟨body.offset, ?_, ?_, ?_, ?_⟩
    · exact Int.ofNat_le.mpr (hstart.trans hhead.offset_le)
    · rw [hstartNat, slice_passes hheader hhead hstart]
      rcases hkind with ⟨words, params, gap, rfl, hparams, hgap⟩ | ⟨⟨words, gap, rfl, hgap⟩, hother⟩
      · exact Or.inl ⟨_ ++ words, params, gap, (List.append_assoc ..).symm, hparams, hgap⟩
      · refine Or.inr ⟨⟨_ ++ words, gap, (List.append_assoc ..).symm, hgap⟩, ?_⟩
        rw [← List.head?_drop, hlead, hsource, List.drop_left]
        exact hother
    · rw [hspanStop]
      exact Int.ofNat_lt.mpr hlt
    · rw [hspanStop, (expressionEnd?_passes hexpression).1.offset_eq, hlead, slice_to_lineEnd hsource]
      rfl

end Shape

/-! ### Brackets of spans -/

variable {source : Text} {s : Span} {d : Delimiter} {b i j : Nat}

/-- Who reads a source text from the start of a span on meets the opener of a bracket in the span, and
the bracket is closed at an offset. -/
structure BracketPair (source : Text) (s : Span) (d : Delimiter) (i j : Nat) : Prop where
  kind : d.IsBracket
  starts : s.start ≤ i
  inside : i < s.stop
  opens : (codeFrom .slashes source s.start.toNat)[i]? = some d.opener
  closes : closingIndex .slashes source i = .ok (some j)

theorem BracketPair.balances (h : BracketPair source s d i j) :
    d.Balances (slice (codeFrom .slashes source s.start.toNat) (i + 1) j) := by
  have hstarts := h.starts
  exact ((closingIndex_eq_iff h.kind (by omega) h.opens).mp h.closes).2.2

theorem BracketPair.closer (h : BracketPair source s d i j) : source[j]? = some d.closer := by
  have hstarts := h.starts
  have hopens := (codeFrom_behind h.kind (by omega) h.opens).1
  exact (getElem?_of_closingIndex h.kind hopens h.closes).2

theorem BlockBody.lt_of_head (hbody : BlockBody source s b) (h : BracketPair source s d i j) (hi : i < b)
    (hhead : d.Balances (slice (codeFrom .slashes source s.start.toNat) s.start.toNat b)) :
    j < s.stop := by
  obtain ⟨e, he, hstop⟩ := hbody.closes
  have hstarts := h.starts
  have hend := (getElem?_of_closingIndex Delimiter.isBracket_brace hbody.opens he).1
  have hlt := Delimiter.lt_of_balances h.kind.distinct.1 hhead (by omega) hi h.opens h.balances
  omega

theorem BlockBody.lt_of_inside (hbody : BlockBody source s b) (h : BracketPair source s d i j) (hi : b < i)
    (hlive : (codeFrom .slashes source s.start.toNat)[b]? = some '{')
    (hbetween : Delimiter.brace.Balances
      (slice (codeFrom .slashes source s.start.toNat) (i + 1) j)) : j < s.stop := by
  obtain ⟨e, he, hstop⟩ := hbody.closes
  have hstarts := hbody.starts
  have hinside := h.inside
  obtain ⟨-, hcloser, hblock⟩ :=
    (closingIndex_eq_iff Delimiter.isBracket_brace (by omega) hlive).mp he
  have hne : i ≠ e := by
    rintro rfl
    have hopens := h.opens
    rw [hcloser] at hopens
    exact h.kind.opener_ne_brace (Option.some.inj hopens).symm
  have hle := Delimiter.le_of_inside_block hblock hcloser hi (by omega) hbetween
  omega

/-- A bracket of an expression is closed in the span exactly if it is closed on the line. -/
theorem LineBody.lt_iff (hbody : LineBody source s b) (h : BracketPair source s d i j) :
    j < s.stop ↔ j < lineEnd source b := by
  have hends := hbody.ends
  have hinside := hbody.inside
  have hcloser := h.closer
  have hle : lineEnd source b ≤ source.length := Nat.min_le_right _ _
  obtain ⟨blanks, hline, hblank⟩ := exists_trimEnd_append (slice source b (lineEnd source b))
  have hlength := congrArg List.length hline
  rw [slice_length, List.length_append] at hlength
  constructor
  · intro hlt
    omega
  · intro hlt
    by_contra hge
    have hbehind : blanks[j - b - (trimEnd (slice source b (lineEnd source b))).length]? =
        some d.closer := by
      rw [← List.getElem?_append_right (by omega), ← hline, slice, List.getElem?_drop,
        List.getElem?_take_of_lt (by omega)]
      rwa [show b + (j - b) = j by omega]
    have := List.all_eq_true.mp hblank _ (List.mem_of_getElem? hbehind)
    rw [h.kind.closer_not_blank] at this
    cases this

namespace Shape

/-- A callable with a block as its body is not cut in the middle of a bracket: one that opens in the span
is closed there, if the head of the callable balances, or if in the block the braces up to its closer
balance, as they do for a brace. An expression ends with its line, so what is closed in the span is what
is closed on the line. -/
theorem spans_close_brackets (h : s ∈ assigned.spans source) :
    (∃ b, BlockBody source s b ∧ ∀ d i j, BracketPair source s d i j →
      (i < b → d.Balances (slice (codeFrom .slashes source s.start.toNat) s.start.toNat b)) →
      (b < i → (codeFrom .slashes source s.start.toNat)[b]? = some '{' ∧
        (d = .brace ∨ Delimiter.brace.Balances
          (slice (codeFrom .slashes source s.start.toNat) (i + 1) j))) →
      j < s.stop) ∨
    (∃ b, LineBody source s b ∧ ∀ d i j, BracketPair source s d i j →
      (j < s.stop ↔ j < lineEnd source b)) := by
  rcases exists_body_of_mem h with ⟨b, hbody⟩ | ⟨b, hbody⟩
  · refine Or.inl ⟨b, hbody, fun d i j hpair hhead hblock => ?_⟩
    rcases Nat.lt_trichotomy i b with hlt | rfl | hlt
    · exact hbody.lt_of_head hpair hlt (hhead hlt)
    · obtain ⟨e, he, hstop⟩ := hbody.closes
      have hsame := he.symm.trans hpair.closes
      simp only [Except.ok.injEq, Option.some.injEq] at hsame
      omega
    · obtain ⟨hlive, rfl | hbetween⟩ := hblock hlt
      · exact hbody.lt_of_inside hpair hlt hlive hpair.balances
      · exact hbody.lt_of_inside hpair hlt hlive hbetween
  · exact Or.inr ⟨b, hbody, fun d i j hpair => hbody.lt_iff hpair⟩

/-- A parenthesis that is opened in a block and closed behind it is cut off: the braces up to its closer do
not balance. -/
example :
    let source : Text := "const f = () => \x7b ( \x7d\n)"
    let s : Span := ⟨"f", "const f = () => \x7b ( \x7d", 0⟩
    s ∈ assigned.spans source ∧ closingIndex .slashes source 18 = .ok (some 22) ∧ s.stop = 21 := by
  decide +kernel

theorem trimEnd_of_endsWithArrow {head : Text} (h : EndsWithArrow head) :
    (trimEnd head).getLast? = some '>' := by
  obtain ⟨front, blanks, rfl, hblanks⟩ := h
  have htrim := trimEnd_append_cons (front ++ ['=']) (c := '>') hblanks (by decide)
  rw [List.append_assoc, List.singleton_append] at htrim
  rw [htrim]
  simp

/-- A function with a parameter list and a block that holds brackets. -/
theorem spans_close_brackets_of_block :
    let source : Text := "const f = (a) => \x7b\n  g([a]);\n\x7d\nf(1);\n"
    let s : Span := ⟨"f", "const f = (a) => \x7b\n  g([a]);\n\x7d", 0⟩
    let code := codeFrom .slashes source 0
    s ∈ assigned.spans source ∧ BlockBody source s 17 ∧
      BracketPair source s .paren 10 12 ∧ BracketPair source s .brace 17 29 ∧
      BracketPair source s .paren 22 26 ∧
      ∀ d i j, BracketPair source s d i j → (i < 17 → d.Balances (slice code 0 17)) →
        (17 < i → code[17]? = some '{' ∧
          (d = .brace ∨ Delimiter.brace.Balances (slice code (i + 1) j))) → j < s.stop := by
  intro source s code
  have hmem : s ∈ assigned.spans source := by decide +kernel
  rcases spans_close_brackets hmem with ⟨b, hbody, hbrackets⟩ | ⟨b, hbody, -⟩
  · have hlength := (List.getElem?_eq_some_iff.mp hbody.opens).1
    have honly : ∀ b < source.length, source[b]? = some '{' → b = 17 := by decide +kernel
    obtain rfl := honly b hlength hbody.opens
    exact ⟨hmem, hbody,
      ⟨List.mem_cons_self .., by decide, by decide, by decide +kernel, by decide +kernel⟩,
      ⟨Delimiter.isBracket_brace, by decide, by decide, by decide +kernel, by decide +kernel⟩,
      ⟨List.mem_cons_self .., by decide, by decide, by decide +kernel, by decide +kernel⟩, hbrackets⟩
  · -- the span ends on a line without an arrow or a lambda in front
    have hlast : ∀ b < 30, (30 : Int) = b + (trimEnd (slice source b (lineEnd source b))).length →
        b = 29 := by decide +kernel
    have hends : s.stop = 30 := by decide
    have hinside := hbody.inside
    obtain rfl := hlast b (by omega) (hends ▸ hbody.ends)
    rcases hbody.head with hlambda | ⟨harrow, -⟩
    · obtain ⟨front, params, blanks, hhead, -⟩ := hlambda
      have hletter : 'l' ∈ slice source s.start.toNat 29 := by
        rw [hhead]
        simp
      exact absurd hletter (by decide +kernel)
    · exact absurd (trimEnd_of_endsWithArrow harrow) (by decide +kernel)

/-- An expression that goes on below its first line is cut inside its parentheses. -/
theorem not_spans_close_brackets :
    ¬∀ (source : Text) (s : Span) (d : Delimiter) (i j : Nat), s ∈ assigned.spans source →
      BracketPair source s d i j → j < s.stop := by
  intro hall
  let source : Text := "const f = x => g(\n  x\n)"
  let s : Span := ⟨"f", "const f = x => g(", 0⟩
  have hmem : s ∈ assigned.spans source := by decide +kernel
  have hpair : BracketPair source s .paren 16 22 :=
    ⟨List.mem_cons_self .., by decide, by decide, by decide +kernel, by decide +kernel⟩
  exact absurd (hall source s .paren 16 22 hmem hpair) (by decide)

end Shape

end CodeGraft
