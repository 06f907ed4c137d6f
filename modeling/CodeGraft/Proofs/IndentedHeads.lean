import CodeGraft.Proofs.NeededChars
import CodeGraft.Proofs.SelfContained

/-!
# Headers of indented callables

The header of an indented callable starts a line behind blanks. Its first opening parenthesis opens the
parameters, and the first colon behind their closer ends it. So the line of the header and its colon can
be told from the text and the place where the span starts.
-/

namespace CodeGraft

open Text Pattern Cursor

namespace Cursor

variable {source : Text} {a b c : Cursor}

/-- The place lies in `source` behind the character that is kept as the one before it. -/
def Stands (source : Text) (c : Cursor) : Prop :=
  ∃ lead, source = lead ++ c.rest ∧ c.offset = lead.length ∧ c.before = lead.getLast?

theorem Stands.start (source : Text) : (Cursor.start source).Stands source := ⟨[], rfl, rfl, rfl⟩

theorem Stands.next (h : a.Stands source) : a.next.Stands source := by
  obtain ⟨lead, hsource, hoffset, hbefore⟩ := h
  cases ha : a.rest with
  | nil => exact ⟨lead, by simp [Cursor.next, ha, hsource], by simp [Cursor.next, ha, hoffset],
      by simp [Cursor.next, ha, hbefore]⟩
  | cons x rest =>
    refine ⟨lead ++ [x], ?_, ?_, ?_⟩
    · simp [Cursor.next, ha, hsource]
    · simp [Cursor.next, ha, hoffset]
    · simp [Cursor.next, ha]

theorem Stands.skip (h : a.Stands source) (n : Nat) : (a.skip n).Stands source := by
  induction n generalizing a with
  | zero => exact h
  | succ n ih => exact ih h.next

end Cursor

namespace Pattern

variable {source : Text} {p : Pattern} {a b c : Cursor}

theorem Leads.stands (h : p.Leads a b) (ha : a.Stands source) : b.Stands source := by
  induction h with
  | nothing | check | manyDone | fewDone => exact ha
  | one => exact ha.next
  | seq _ _ ihp ihq => exact ihq (ihp ha)
  | first _ ih => exact ih ha
  | second _ ih => exact ih ha
  | manyMore _ _ _ ihp ihq => exact ihq (ihp ha)
  | fewMore _ _ _ ihp ihq => exact ihq (ihp ha)
  | capture _ ih => exact ih ha

theorem searchFrom_stands {offset : Nat} {before : Option Char} {text : Text} {f : Found}
    (h : p.searchFrom offset before text = some f)
    (hc : ({ offset, before, rest := text } : Cursor).Stands source) : f.start.Stands source := by
  induction text generalizing offset before with
  | nil =>
    obtain ⟨stop, -, rfl⟩ := Option.map_eq_some_iff.mp h
    exact hc
  | cons x rest ih =>
    simp only [searchFrom] at h
    split at h
    next =>
      cases h
      exact hc
    next => exact ih h hc.next

theorem search?_stands {f : Found} (h : p.search? c = some f) (hc : c.Stands source) :
    f.start.Stands source ∧ f.stop.Stands source := by
  have hstart := searchFrom_stands h hc
  exact ⟨hstart, (leads_of_attempt (search?_attempt h).1).stands hstart⟩

theorem fitAt?_stands (h : p.fitAt? a = some b) (ha : a.Stands source) : b.Stands source :=
  (leads_of_attempt h).stands ha

end Pattern

theorem takeWhile_ne_append {x : Char} {front : Text} (h : x ∉ front) (rest : Text) :
    (front ++ x :: rest).takeWhile (· ≠ x) = front := by
  have hall : ∀ y ∈ front, decide (y ≠ x) = true := by
    intro y hy
    rw [decide_eq_true_eq]
    rintro rfl
    exact h hy
  rw [List.takeWhile_append_of_pos hall, List.takeWhile_cons_of_neg (by simp), List.append_nil]

theorem indentWidth_append_of_indented {indent : Text} (h : ∀ c ∈ indent, c = ' ' ∨ c = '\t') {x : Char}
    (hx : isBlank x = false) (line : Text) :
    indentWidth (indent ++ x :: line) = indentWidth indent := by
  induction indent with
  | nil =>
    rw [List.nil_append, indentWidth]
    · rfl
    · rintro t ⟨⟩
      cases hx
    · rintro t ⟨⟩
      cases hx
  | cons c indent ih =>
    have hrest := ih fun d hd => h d (List.mem_cons_of_mem c hd)
    rcases h c (by simp) with rfl | rfl
    · rw [List.cons_append, indentWidth, hrest, indentWidth]
    · rw [List.cons_append, indentWidth, hrest, indentWidth]

namespace Text

def lineAt (text : Text) (offset : Nat) : Text :=
  ((text.take offset).reverse.takeWhile (· ≠ '\n')).reverse ++
    (text.drop offset).takeWhile (· ≠ '\n')

theorem lineAt_append {above front : Text} (habove : above.getLast?.all (· == '\n') = true)
    (hfront : '\n' ∉ front) (rest : Text) :
    lineAt (above ++ (front ++ rest)) (above.length + front.length) =
      front ++ rest.takeWhile (· ≠ '\n') := by
  have hsplit : above ++ (front ++ rest) = (above ++ front) ++ rest := by rw [List.append_assoc]
  have hlength : above.length + front.length = (above ++ front).length := by rw [List.length_append]
  rw [lineAt, hsplit, hlength, List.take_left, List.drop_left,
    takeWhile_reverse_append habove hfront, List.reverse_reverse]

end Text

/-- The colon that ends the header of an indented callable, whose first character is at offset
`start`: the first one behind the closer of the parameters. -/
def headerColon? (source : Text) (start : Nat) : Option Nat :=
  let opened := start + ((source.drop start).takeWhile (· ≠ '(')).length
  match closingIndex .hash source opened with
  | .ok (some closed) => some (closed + ((source.drop closed).takeWhile (· ≠ ':')).length)
  | _ => none

/-- The stretches that a text consists of around the header of an indented callable. -/
structure Heading where
  above : Text
  /-- The blanks in front of the header. -/
  indent : Text
  /-- The words in front of the parameters. -/
  words : Text
  params : Text
  /-- What stands between the parameters and the colon. -/
  result : Text
  behind : Text

namespace Heading

def start (g : Heading) : Nat := g.above.length + g.indent.length

def header (g : Heading) : Text := g.words ++ '(' :: (g.params ++ ')' :: (g.result ++ [':']))

def colon (g : Heading) : Nat := g.start + g.words.length + 1 + g.params.length + 1 + g.result.length

/-- The stretches are those of a source text. -/
structure IsOf (g : Heading) (source : Text) : Prop where
  source_eq : source = g.above ++ (g.indent ++ (g.header ++ g.behind))
  above_ends : g.above.getLast?.all (· == '\n') = true
  indented : ∀ c ∈ g.indent, c = ' ' ∨ c = '\t'
  starts : ∃ x rest, g.header ++ g.behind = x :: rest ∧ isBlank x = false
  words_call : '(' ∉ g.words
  closes : Delimiter.paren.closingFrom .hash .code 1
    (g.params ++ ')' :: (g.result ++ ':' :: g.behind)) = some g.params.length
  result_ends : ':' ∉ g.result

variable {g : Heading} {source : Text}

theorem start_le_colon (g : Heading) : g.start ≤ g.colon := by
  simp only [colon]
  omega

theorem header_length (g : Heading) : g.start + g.header.length = g.colon + 1 := by
  simp only [header, colon, List.length_append, List.length_cons, List.length_nil]
  omega

theorem IsOf.indentWidth_lineAt (h : g.IsOf source) :
    indentWidth (lineAt source g.start) = indentWidth g.indent := by
  obtain ⟨x, rest, hstarts, hx⟩ := h.starts
  have hfeed : '\n' ∉ g.indent := by
    intro hmem
    rcases h.indented _ hmem with heq | heq <;> cases heq
  have hline : x ≠ '\n' := by
    rintro rfl
    cases hx
  rw [h.source_eq, start, lineAt_append h.above_ends hfeed, hstarts,
    List.takeWhile_cons_of_pos (by simpa using hline)]
  exact indentWidth_append_of_indented h.indented hx _

theorem IsOf.exists_front (h : g.IsOf source) :
    ∃ front, source = front ++ ':' :: g.behind ∧ front.length = g.colon := by
  refine ⟨g.above ++ (g.indent ++ (g.words ++ '(' :: (g.params ++ ')' :: g.result))), ?_, ?_⟩
  · rw [h.source_eq, header]
    simp
  · simp only [colon, start, List.length_append, List.length_cons]
    omega

theorem IsOf.closingIndex (h : g.IsOf source) :
    CodeGraft.closingIndex .hash source (g.start + g.words.length) =
      .ok (some (g.start + g.words.length + 1 + g.params.length)) := by
  have hopened : source.drop (g.start + g.words.length) =
      '(' :: (g.params ++ ')' :: (g.result ++ ':' :: g.behind)) := by
    have hsplit : source = (g.above ++ (g.indent ++ g.words)) ++
        '(' :: (g.params ++ ')' :: (g.result ++ ':' :: g.behind)) := by
      rw [h.source_eq, header]
      simp
    have hlength : g.start + g.words.length = (g.above ++ (g.indent ++ g.words)).length := by
      simp [start, Nat.add_assoc]
    rw [hlength, hsplit, List.drop_left]
  have hparen : Delimiter.ofOpener? '(' = some .paren := by decide
  simp only [CodeGraft.closingIndex, hopened, hparen, h.closes, Option.map_some]

theorem IsOf.headerColon? (h : g.IsOf source) :
    CodeGraft.headerColon? source g.start = some g.colon := by
  have hstart : source.drop g.start =
      g.words ++ '(' :: (g.params ++ ')' :: (g.result ++ ':' :: g.behind)) := by
    have hsplit : source = (g.above ++ g.indent) ++
        (g.words ++ '(' :: (g.params ++ ')' :: (g.result ++ ':' :: g.behind))) := by
      rw [h.source_eq, header]
      simp
    have hlength : g.start = (g.above ++ g.indent).length := by simp [start]
    rw [hlength, hsplit, List.drop_left]
  have hclosed : source.drop (g.start + g.words.length + 1 + g.params.length) =
      (')' :: g.result) ++ ':' :: g.behind := by
    have hdrop : source.drop (g.start + g.words.length + 1 + g.params.length) =
        (source.drop g.start).drop (g.words.length + (g.params.length + 1)) := by
      rw [List.drop_drop]
      congr 1
      omega
    rw [hdrop, hstart, List.drop_length_add_append, List.drop_succ_cons, List.drop_left]
    rfl
  have hresult : ':' ∉ ')' :: g.result := by
    rw [List.mem_cons]
    rintro (hparen | hmem)
    · cases hparen
    · exact h.result_ends hmem
  simp only [CodeGraft.headerColon?, hstart, takeWhile_ne_append h.words_call, h.closingIndex, hclosed,
    takeWhile_ne_append hresult, List.length_cons, colon]
  congr 1
  omega

end Heading

/-! ### Where spans start -/

namespace Shape

variable {source : Text} {a b c stop : Cursor} {f : Found} {start : Nat}

theorem leads_indentation (h : Pattern.indentation.Leads a b) :
    ∃ indent, a.Passes indent b ∧ ∀ x ∈ indent, x = ' ' ∨ x = '\t' := by
  obtain ⟨indent, hindent, hall⟩ := h.passes_many
  exact ⟨indent, hindent, fun x hx => by simpa using hall x hx⟩

/-- What stands between the keyword `async` and the parameters. -/
def nameParts : List Pattern := [
  "def",
  oneOrMore (charIn " \t"),
  .capture .name (.seq (.one fun c => c.isAlpha || c = '_') (.many (.one isWordChar))),
  Pattern.indentation]

/-- What stands between the parameters and the colon. -/
def resultParts : List Pattern := [
  Pattern.indentation, Pattern.optional (cat ["->", oneOrMore (charNotIn ":\n")])]

theorem definedName_eq : definedName = cat (nameParts ++ [literal "("]) := rfl

theorem blockColon_eq : blockColon = cat (resultParts ++ [literal ":"]) := rfl

theorem avoids_indentedWord : (Pattern.optional indentedWord).Avoids '(' :=
  ⟨(avoids_cat _).mpr (by simp [Avoids, charIn, oneOrMore, avoids_literal]), trivial⟩

theorem avoids_nameParts : (cat nameParts).Avoids '(' := by
  have hword : isWordChar '(' = false := by decide
  rw [avoids_cat]
  simp [nameParts, Avoids, avoids_literal, oneOrMore, charIn, Pattern.indentation, hword]

theorem avoids_resultParts : (cat resultParts).Avoids ':' := by
  rw [avoids_cat]
  simp [resultParts, Avoids, avoids_literal, avoids_cat, oneOrMore, charIn, charNotIn,
    Pattern.indentation, Pattern.optional]

theorem leads_indentedHead (h : indentedHead.Leads a b) :
    ∃ words, a.Passes (words ++ ['(']) b ∧ '(' ∉ words := by
  obtain ⟨c, hhead, hend⟩ := h.of_seq
  obtain ⟨d, hwords, rfl⟩ := hhead.of_capture
  cases hend
  obtain ⟨e, hasync, hname⟩ := hwords.of_seq
  rw [definedName_eq] at hname
  obtain ⟨opened, hname, hparen⟩ := hname.of_cat_concat
  obtain ⟨words, hwords, hno⟩ :=
    (hasync.passesNo avoids_indentedWord).trans (hname.passesNo avoids_nameParts)
  have hpasses := hwords.trans hparen.passes_literal
  exact ⟨words, ⟨hpasses.rest_eq, hpasses.offset_eq⟩, hno⟩

theorem leads_blockColon (h : blockColon.Leads a b) :
    ∃ result, a.Passes (result ++ [':']) b ∧ ':' ∉ result := by
  rw [blockColon_eq] at h
  obtain ⟨c, hresult, hcolon⟩ := h.of_cat_concat
  obtain ⟨result, hpasses, hno⟩ := hresult.passesNo avoids_resultParts
  exact ⟨result, hpasses.trans hcolon.passes_literal, hno⟩

/-- The indentation of a header is what is captured as such, and the header goes on with a character that is
not blank. -/
theorem leads_indentationHeader (h : indentationHeader.Leads a b) :
    ∃ x rest, a.rest = b.capturedText .indent ++ x :: rest ∧ isBlank x = false ∧
      ∀ y ∈ b.capturedText .indent, isBlank y = true := by
  rw [indentationHeader_eq] at h
  obtain ⟨c, hline, h⟩ := h.of_seq
  obtain ⟨d, hindent, hhead⟩ := h.of_seq
  obtain ⟨e, he, rfl⟩ := hindent.of_capture
  cases hline
  obtain ⟨indent, hindent, hall⟩ := leads_indentation he
  obtain ⟨-, hkept, x, rest, hx, hblank⟩ := captured?_of_indentedHead hhead
  have hcaptured : b.capturedText .indent = indent := by
    rw [capturedText, hkept]
    exact he.capturedText_eq hindent.rest_eq .indent
  rw [hcaptured]
  refine ⟨x, rest, hx ▸ hindent.rest_eq, hblank, fun y hy => ?_⟩
  rcases hall y hy with rfl | rfl <;> rfl

theorem exists_heading (hstands : f.start.Stands source)
    (h : indentation.Occurs source f start stop) :
    ∃ (g : Heading) (colon : Cursor), g.IsOf source ∧ start = g.start ∧ colon.rest = g.behind ∧
      colon.offset = g.colon + 1 ∧ stop = blockEnd (indentWidth g.indent) colon := by
  obtain ⟨above, hsource, habove, hbefore⟩ := hstands
  have hbounds := h.bounds
  simp only [bounds?, bind, Option.bind_eq_some_iff, Option.some.injEq, Prod.mk.injEq] at hbounds
  obtain ⟨closed, hclosed, colon, hcolon, first, hfirst, rfl, rfl⟩ := hbounds
  have hheader : indentationHeader.Leads f.start f.stop := leads_of_attempt h.header
  rw [indentationHeader_eq] at hheader
  obtain ⟨a, hline, hheader⟩ := hheader.of_seq
  obtain ⟨b, hindent, hhead⟩ := hheader.of_seq
  obtain ⟨e, he, rfl⟩ := hindent.of_capture
  cases hline with
  | check hfeed =>
    obtain ⟨indent, hindent, hindented⟩ := leads_indentation he
    obtain ⟨words, hwords, hcall⟩ := leads_indentedHead hhead
    obtain ⟨params, hparams, hcloses⟩ := Delimiter.close?_front hclosed
    obtain ⟨result, hresult, hends⟩ := leads_blockColon (leads_of_attempt hcolon)
    obtain ⟨⟨text, htext⟩, hkept, x, rest, hx, hblank⟩ := captured?_of_indentedHead hhead
    rw [htext] at hfirst
    cases hfirst
    have hwidth : f.stop.capturedText .indent = indent := by
      rw [capturedText, hkept]
      exact he.capturedText_eq hindent.rest_eq .indent
    have hbehind : f.stop.rest = params ++ ')' :: (result ++ ':' :: colon.rest) := by
      have hclosedRest : closed.rest = (result ++ [':']) ++ colon.rest := hresult.rest_eq
      rw [hparams.rest_eq, hclosedRest]
      simp [Delimiter.paren]
    have hoffset : e.offset = above.length + indent.length := by
      rw [hindent.offset_eq, habove]
    -- the stretches in the order in which the header passes them
    let g : Heading := ⟨above, indent, words, params, result, colon.rest⟩
    have hheaderRest : e.rest = g.header ++ g.behind := by
      have hrest : e.rest = (words ++ ['(']) ++ f.stop.rest := hwords.rest_eq
      rw [hrest, hbehind]
      simp [g, Heading.header]
    have hcolonOffset : colon.offset = g.colon + 1 := by
      have hopened : f.stop.offset = e.offset + (words ++ ['(']).length := hwords.offset_eq
      have hend : colon.offset = closed.offset + (result ++ [':']).length := hresult.offset_eq
      rw [hend, hparams.offset_eq, hopened, hoffset]
      simp only [g, Heading.colon, Heading.start, List.length_append, List.length_singleton]
      omega
    refine ⟨g, colon, ?_, hoffset, rfl, hcolonOffset, by rw [hwidth]⟩
    · refine ⟨?_, ?_, hindented, ?_, hcall, ?_, hends⟩
      · rw [hsource, hindent.rest_eq, hheaderRest]
      · rwa [← hbefore]
      · refine ⟨x, rest, ?_, hblank⟩
        rw [← hheaderRest]
        exact hx
      · rw [← hbehind]
        exact hcloses

end Shape

end CodeGraft
