import CodeGraft.Proofs.Indexes
import CodeGraft.Proofs.NameMatches
import CodeGraft.Proofs.SelfContained

/-!
# The shape of a callable by its first words

A callable begins with a word, and this word with the first character behind it that is no blank
tells its shape; behind the word `async` those of the rest tell it. So callables of different shapes
never begin at one place.
-/

namespace CodeGraft

open Text Pattern Cursor

def firstWord (text : Text) : Text := text.takeWhile isNameChar

def behindWord (text : Text) : Text := (text.dropWhile isNameChar).dropWhile isBlank

/-- A text begins with a word, and behind it and any blanks stands the character `c`. -/
def Opens (text word : Text) (c : Char) (more : Text) : Prop :=
  ∃ gap, text = word ++ (gap ++ c :: more) ∧ (∀ x ∈ word, isNameChar x = true) ∧
    (∀ x ∈ gap, isBlank x = true) ∧ isBlank c = false ∧ (gap = [] → isNameChar c = false)

namespace Opens

variable {text word more : Text} {c : Char}

theorem append (h : Opens text word c more) (tail : Text) :
    Opens (text ++ tail) word c (more ++ tail) := by
  obtain ⟨gap, rfl, hrest⟩ := h
  exact ⟨gap, by simp only [List.append_assoc, List.cons_append], hrest⟩

theorem dropWhile_eq (h : Opens text word c more) :
    ∃ gap, text = word ++ (gap ++ c :: more) ∧ text.dropWhile isNameChar = gap ++ c :: more ∧
      (gap ++ c :: more).dropWhile isBlank = c :: more := by
  obtain ⟨gap, rfl, hword, hgap, hc, hend⟩ := h
  refine ⟨gap, rfl, ?_, ?_⟩
  · rw [List.dropWhile_append_of_pos hword]
    cases gap with
    | nil => simp [hend rfl]
    | cons x gap => simp [not_isNameChar_of_isBlank (hgap x (List.mem_cons_self ..))]
  · rw [List.dropWhile_append_of_pos hgap]
    simp [hc]

theorem firstWord_eq (h : Opens text word c more) : firstWord text = word := by
  obtain ⟨gap, htext, hdrop, -⟩ := h.dropWhile_eq
  have hsplit := List.takeWhile_append_dropWhile (p := isNameChar) (l := text)
  rw [hdrop] at hsplit
  exact List.append_cancel_right (hsplit.trans htext)

theorem behindWord_eq (h : Opens text word c more) : behindWord text = c :: more := by
  obtain ⟨gap, -, hdrop, hblanks⟩ := h.dropWhile_eq
  rw [behindWord, hdrop, hblanks]

theorem of_mark {gap : Text} (hword : word.all isNameChar = true)
    (hgap : ∀ x ∈ gap, isBlank x = true) (hblank : isBlank c = false)
    (hname : isNameChar c = false) : Opens (word ++ (gap ++ c :: more)) word c more :=
  ⟨gap, rfl, List.all_eq_true.mp hword, hgap, hblank, fun _ => hname⟩

theorem of_spaced {accepts : Char → Bool} {a b : Cursor} (ha : text = word ++ a.rest)
    (hword : word.all isNameChar = true) (hgap : (oneOrMore (.one accepts)).Leads a b)
    (haccepts : ∀ x, accepts x = true → isBlank x = true) (hb : b.rest = c :: more)
    (hc : isBlank c = false) : Opens text word c more := by
  obtain ⟨y, gap, hrest, hy, hblanks⟩ := hgap.rest_of_oneOrMore
  refine ⟨y :: gap, by rw [ha, hrest, hb]; rfl, List.all_eq_true.mp hword, ?_, hc, by simp⟩
  intro x hx
  rcases List.mem_cons.mp hx with rfl | hx
  · exact haccepts _ hy
  · exact haccepts x (hblanks x hx)

end Opens

theorem Cursor.Reaches.rest_eq_of_offset_eq {a b : Cursor} (h : a.Reaches b)
    (hoffset : b.offset = a.offset) : b.rest = a.rest := by
  obtain ⟨passed, hpassed⟩ := h
  have hnil : passed = [] := by
    apply List.eq_nil_of_length_eq_zero
    have hlength := hpassed.offset_eq
    omega
  rw [hpassed.rest_eq, hnil, List.nil_append]

theorem Pattern.Leads.of_check {holds : Option Char → Text → Bool} {p : Pattern} {a b : Cursor}
    (h : (Pattern.seq (.check holds) p).Leads a b) : p.Leads a b := by
  obtain ⟨c, hcheck, hrest⟩ := h.of_seq
  cases hcheck
  exact hrest

namespace Shape

variable {shape : Shape} {source text name content : Text} {a b : Cursor}

def declarationWords : List Text := List.map String.toList ["function", "func", "fn", "fun"]

/-- The shape of a callable that begins with a word, by the first character behind the word that is
no blank. -/
def shapeBy (word : Text) (c : Option Char) : Shape :=
  if c = some ':' ∨ c = some '=' then assigned
  else if word ∈ declarationWords then declaration
  else if c = some '(' then callShaped
  else if word = "def" then indentation
  else assigned

/-- The shape of the callable that a text begins with, if it begins with one. -/
def shapeAt (text : Text) : Shape :=
  let behind := behindWord text
  if firstWord text = "async" ∧ behind.head?.any isNameStart = true then
    shapeBy (firstWord behind) (behindWord behind).head?
  else shapeBy (firstWord text) behind.head?

def HeadedBy (shape : Shape) (text : Text) : Prop :=
  ∃ word c more, Opens text word c more ∧ word.head?.any isNameStart = true ∧
    shapeBy word (some c) = shape ∧ (word = "async" → isNameStart c = false)

theorem HeadedBy.append (h : shape.HeadedBy text) (tail : Text) :
    shape.HeadedBy (text ++ tail) := by
  obtain ⟨word, c, more, hopens, hrest⟩ := h
  exact ⟨word, c, more ++ tail, hopens.append tail, hrest⟩

theorem HeadedBy.shapeAt (h : shape.HeadedBy text) : shapeAt text = shape := by
  obtain ⟨word, c, more, hopens, -, hshape, hasync⟩ := h
  have hnot : ¬(word = "async" ∧ isNameStart c = true) := by
    intro hboth
    rw [hasync hboth.1] at hboth
    cases hboth.2
  simp only [Shape.shapeAt, hopens.firstWord_eq, hopens.behindWord_eq, List.head?_cons,
    Option.any_some]
  rw [if_neg hnot, hshape]

theorem HeadedBy.exists_head (h : shape.HeadedBy text) :
    ∃ x rest, text = x :: rest ∧ isNameStart x = true := by
  obtain ⟨word, c, more, ⟨gap, rfl, -⟩, hstart, -⟩ := h
  cases word with
  | nil => cases hstart
  | cons x word => exact ⟨x, _, rfl, hstart⟩

def Headed (shape : Shape) (text : Text) : Prop :=
  shape.HeadedBy text ∨ ∃ c more, Opens text "async" c more ∧ shape.HeadedBy (c :: more)

theorem Headed.append (h : shape.Headed text) (tail : Text) : shape.Headed (text ++ tail) := by
  rcases h with h | ⟨c, more, hopens, h⟩
  · exact Or.inl (h.append tail)
  · exact Or.inr ⟨c, more ++ tail, hopens.append tail, h.append tail⟩

theorem Headed.shapeAt (h : shape.Headed text) : shapeAt text = shape := by
  rcases h with h | ⟨c, more, hopens, h⟩
  · exact h.shapeAt
  · obtain ⟨x, rest, hrest, hstart⟩ := h.exists_head
    obtain ⟨rfl, rfl⟩ := List.cons.inj hrest
    obtain ⟨word, d, more', hinner, -, hshape, -⟩ := h
    simp only [Shape.shapeAt, hopens.firstWord_eq, hopens.behindWord_eq, hinner.firstWord_eq,
      hinner.behindWord_eq, List.head?_cons, Option.any_some, hstart, and_true, if_true, hshape]

/-! ### What headers begin with -/

theorem isBlank_of_space {x : Char} (h : " \t".toList.contains x = true) : isBlank x = true := by
  simp only [String.reduceToList, List.contains_cons, List.contains_nil, Bool.or_false,
    Bool.or_eq_true, beq_iff_eq] at h
  rcases h with rfl | rfl
  · decide
  · decide

theorem opens_of_async {accepts : Char → Bool} (haccepts : ∀ x, accepts x = true → isBlank x = true)
    (h : (cat ["async", oneOrMore (.one accepts)]).Leads a b) {c : Char} {more : Text}
    (hb : b.rest = c :: more) (hc : isNameStart c = true) : Opens a.rest "async" c more := by
  obtain ⟨d, hword, hrest⟩ := h.of_seq
  obtain ⟨e, hblanks, hend⟩ := hrest.of_seq
  cases hend
  exact .of_spaced hword.rest_of_literal (by decide) hblanks haccepts hb
    (not_isBlank_of_isNameStart hc)

theorem headed_of_optional {p q : Pattern} (h : (Pattern.seq (Pattern.optional p) q).Leads a b)
    (hp : ∀ c, p.Leads a c → ∃ accepts : Char → Bool, (∀ x, accepts x = true → isBlank x = true) ∧
      (cat ["async", oneOrMore (.one accepts)]).Leads a c)
    (hq : ∀ c, q.Leads c b → shape.HeadedBy c.rest) : shape.Headed a.rest := by
  obtain ⟨c, hword, hhead⟩ := h.of_seq
  have hheaded := hq c hhead
  rcases hword.of_alt with hword | hnone
  · obtain ⟨x, rest, hrest, hstart⟩ := hheaded.exists_head
    obtain ⟨accepts, haccepts, hword⟩ := hp c hword
    exact Or.inr ⟨x, rest, opens_of_async haccepts hword hrest hstart, hrest ▸ hheaded⟩
  · cases hnone
    exact Or.inl hheaded

theorem ne_mark_of_isNameStart {x : Char} (hx : isNameStart x = true) : x ≠ ':' ∧ x ≠ '=' := by
  constructor
  · rintro rfl
    exact absurd hx (by decide)
  · rintro rfl
    exact absurd hx (by decide)

theorem headedBy_of_declares {word : Text} {c : Char} {more : Text} (h : Opens text word c more)
    (hword : word ∈ declarationWords) (hmark : c ≠ ':' ∧ c ≠ '=') : declaration.HeadedBy text := by
  have hall : ∀ w ∈ declarationWords, w.head?.any isNameStart = true ∧ w ≠ "async" := by decide
  obtain ⟨hstart, hasync⟩ := hall word hword
  exact ⟨word, c, more, h, hstart, by simp [shapeBy, hmark, hword], fun heq => absurd heq hasync⟩

theorem exists_head_of_name {c d : Cursor} {label : Label}
    (h : (Pattern.capture label identifier).Leads c d) :
    ∃ x rest, c.rest = x :: rest ∧ isNameStart x = true := by
  obtain ⟨d, hname, rfl⟩ := h.of_capture
  obtain ⟨x, name, hc, hx, -⟩ := hname.rest_of_identifier
  exact ⟨x, _, hc, hx⟩

theorem headedBy_of_declarationWord (h : declarationWord.Leads a b) :
    declaration.HeadedBy a.rest := by
  obtain ⟨c, hkeyword, hrest⟩ := h.of_seq
  obtain ⟨d, hname, -⟩ := hrest.of_seq
  obtain ⟨x, rest, hc, hx⟩ := exists_head_of_name hname
  rcases hkeyword.of_alt with hfunction | hother
  · obtain ⟨e, hword, hgap⟩ := hfunction.of_seq
    obtain ⟨f, hgap, hend⟩ := hgap.of_seq
    cases hend
    have ha := hword.rest_of_literal
    rcases hgap.of_alt with hstar | hblanks
    · obtain ⟨f, hblanks, hstar⟩ := hstar.of_seq
      obtain ⟨g, hstar, -⟩ := hstar.of_seq
      obtain ⟨gap, hgap, hall⟩ := Leads.rest_of_many hblanks
      rw [hstar.rest_of_literal] at hgap
      rw [ha, hgap]
      exact headedBy_of_declares (.of_mark (by decide) hall (by decide) (by decide))
        (by decide) (by decide)
    · exact headedBy_of_declares (.of_spaced ha (by decide) hblanks (fun _ hx => hx) hc
        (not_isBlank_of_isNameStart hx)) (by decide) (ne_mark_of_isNameStart hx)
  · obtain ⟨e, hword, hgap⟩ := hother.of_seq
    obtain ⟨f, hblanks, hreceiver⟩ := hgap.of_seq
    obtain ⟨word, hmem, ha⟩ := hword.rest_of_anyWord
    have hall : ∀ w ∈ ["func", "fn", "fun"], w.toList ∈ declarationWords ∧
        w.toList.all isNameChar = true := by decide
    obtain ⟨hdeclares, hchars⟩ := hall word hmem
    obtain ⟨g, hreceiver, hend⟩ := hreceiver.of_seq
    cases hend
    rcases hreceiver.of_alt with hreceiver | hnone
    · obtain ⟨g, hparen, -⟩ := hreceiver.of_seq
      exact headedBy_of_declares (.of_spaced ha hchars hblanks (fun _ hx => hx)
        hparen.rest_of_literal (by decide)) hdeclares (by decide)
    · cases hnone
      exact headedBy_of_declares (.of_spaced ha hchars hblanks (fun _ hx => hx) hc
        (not_isBlank_of_isNameStart hx)) hdeclares (ne_mark_of_isNameStart hx)

theorem all_isNameChar_of_name {x : Char} {name : Text} (hx : isNameStart x = true)
    (hname : ∀ y ∈ name, isNameChar y = true) : (x :: name).all isNameChar = true := by
  rw [List.all_cons, isNameChar_of_isNameStart hx, Bool.true_and]
  exact List.all_eq_true.mpr hname

/-- The name of a call-shaped header is the longest one that can be read. -/
theorem opens_of_calledName (h : calledName.Leads a b) :
    (∃ more, Opens a.rest (b.capturedText .name) '(' more) ∧
      (b.capturedText .name).head?.any isNameStart = true := by
  obtain ⟨c, hname, hrest⟩ := h.of_seq
  obtain ⟨d, hblanks, hparen⟩ := hrest.of_seq
  obtain ⟨e, hparen, hend⟩ := hparen.of_seq
  cases hend
  obtain ⟨c, hidentifier, rfl⟩ := hname.of_capture
  obtain ⟨x, name, ha, hx, hchars⟩ := hidentifier.rest_of_identifier
  obtain ⟨gap, hgap, hall⟩ := Leads.rest_of_many hblanks
  have hcaptured : b.capturedText .name = x :: name := by
    rw [capturedText, hparen.captured?_eq (by simp), hblanks.captured?_eq (by simp)]
    exact hidentifier.capturedText_eq ha .name
  have hword : (x :: name).all isNameChar = true := all_isNameChar_of_name hx hchars
  rw [hparen.rest_of_literal] at hgap
  have hrest : a.rest = (x :: name) ++ (gap ++ '(' :: b.rest) := by
    rw [ha, show c.rest = _ from hgap]
    rfl
  rw [hcaptured, hrest]
  exact ⟨⟨_, .of_mark hword hall (by decide) (by decide)⟩, hx⟩

theorem headedBy_of_calledName (h : calledName.Leads a b)
    (hcontrol : b.capturedText .name ∉ controlWords) : callShaped.HeadedBy a.rest := by
  obtain ⟨⟨more, hopens⟩, hstart⟩ := opens_of_calledName h
  have hall : ∀ w ∈ declarationWords, w ∈ controlWords := by decide
  have hnot : b.capturedText .name ∉ declarationWords := fun hmem => hcontrol (hall _ hmem)
  exact ⟨_, '(', more, hopens, hstart, by simp [shapeBy, hnot], fun _ => by decide⟩

theorem headedBy_of_definedName (h : definedName.Leads a b) : indentation.HeadedBy a.rest := by
  obtain ⟨c, hword, hrest⟩ := h.of_seq
  obtain ⟨d, hblanks, hname⟩ := hrest.of_seq
  obtain ⟨e, hname, -⟩ := hname.of_seq
  have hbegins : (Pattern.capture .name (.seq (.one fun c => c.isAlpha || c = '_')
      (.many (.one isWordChar)))).Begins isNameStart := by
    intro x hx
    exact Bool.or_eq_true_iff.mpr (Or.inl hx)
  obtain ⟨x, rest, hd, hx⟩ := hbegins.head hname
  have hmark := ne_mark_of_isNameStart hx
  have hparen : x ≠ '(' := by
    rintro rfl
    exact absurd hx (by decide)
  have hshape : shapeBy "def" (some x) = indentation := by
    rw [shapeBy, if_neg (by simp [hmark]), if_neg (by decide), if_neg (by simpa), if_pos rfl]
  exact ⟨"def", x, rest, .of_spaced hword.rest_of_literal (by decide) hblanks
    (fun _ hx => isBlank_of_space hx) hd (not_isBlank_of_isNameStart hx), by decide, hshape,
    fun heq => absurd heq (by decide)⟩

theorem headedBy_of_boundName (h : boundName.Leads a b) : assigned.HeadedBy a.rest := by
  obtain ⟨x, name, gap, m, more, ha, hx, hchars, hgap, hm⟩ := boundName_rest h
  have hword : (x :: name).all isNameChar = true := all_isNameChar_of_name hx hchars
  have hmark : isBlank m = false ∧ isNameChar m = false ∧ isNameStart m = false := by
    rcases hm with rfl | rfl <;> decide
  rw [ha]
  exact ⟨x :: name, m, more, .of_mark hword hgap hmark.1 hmark.2.1, hx, by simp [shapeBy, hm],
    fun _ => hmark.2.2⟩

theorem headedBy_of_bindingKeyword {c : Cursor} (h : bindingKeyword.Leads a b)
    (hname : boundName.Leads b c) : assigned.HeadedBy a.rest := by
  obtain ⟨x, rest, hb, hx⟩ := boundName_begins.head hname
  obtain ⟨d, hedge, hrest⟩ := h.of_seq
  obtain ⟨e, hkeyword, hrest⟩ := hrest.of_seq
  obtain ⟨f, hblanks, hend⟩ := hrest.of_seq
  obtain ⟨e, hword, rfl⟩ := hkeyword.of_capture
  cases hend
  cases hedge
  obtain ⟨word, hmem, ha⟩ := hword.rest_of_anyWord
  have hbehind : (e.capture a .keyword).rest = e.rest := rfl
  rw [← hbehind] at ha
  have hall : ∀ w ∈ ["const", "let", "var"], w.toList ∉ declarationWords ∧
      w.toList ≠ ("def" : Text) ∧ w.toList ≠ ("async" : Text) ∧
      w.toList.head?.any isNameStart = true ∧ w.toList.all isNameChar = true := by decide
  obtain ⟨hdeclares, hdef, hasync, hstart, hchars⟩ := hall word hmem
  have hparen : x ≠ '(' := by
    rintro rfl
    exact absurd hx (by decide)
  refine ⟨word.toList, x, rest, .of_spaced ha hchars hblanks (fun _ hx => hx) hb
    (not_isBlank_of_isNameStart hx), hstart, ?_, fun heq => absurd heq hasync⟩
  rw [shapeBy, if_neg (by simp [ne_mark_of_isNameStart hx]), if_neg hdeclares, if_neg (by simpa),
    if_neg hdef]

theorem headed_of_fills (h : shape.Fills name content) : shape.Headed content := by
  obtain ⟨found, stop, hheader, hbounds, -⟩ := h
  have hlead := leads_of_attempt hheader
  have hstart : (Cursor.start content).rest = content := rfl
  rw [← hstart]
  cases shape with
  | declaration =>
    rw [header, declarationHeader_eq] at hlead
    exact headed_of_optional hlead
      (fun c hasync => ⟨isBlank, fun _ hx => hx, Leads.of_check hasync⟩)
      fun c hword => headedBy_of_declarationWord (Leads.of_check hword)
  | assigned =>
    simp only [bounds?, bind, Option.bind_eq_some_iff, Option.some.injEq, Prod.mk.injEq] at hbounds
    obtain ⟨-, -, first, hfirst, hzero, -⟩ := hbounds
    rw [header, assignedHeader_eq] at hlead
    obtain ⟨d, hfront, hname⟩ := hlead.of_seq
    rcases hfront.of_alt with hkeyword | hmodified
    · exact Or.inl (headedBy_of_bindingKeyword hkeyword hname)
    · obtain ⟨⟨text, hcaptured⟩, hkeyword⟩ := captured?_of_boundName hname
      have hnone : d.captured? .keyword = none := captured?_of_modifiedLine hmodified .keyword
      rw [hkeyword, hnone, hcaptured] at hfirst
      cases hfirst
      rw [← Reaches.rest_eq_of_offset_eq hmodified.passes hzero]
      exact Or.inl (headedBy_of_boundName hname)
  | callShaped =>
    have hcontrol : found.capturedText .name ∉ controlWords := by
      intro hmem
      simp [bounds?, hmem] at hbounds
    rw [header, callHeader_eq] at hlead
    exact headed_of_optional hlead
      (fun c hasync => ⟨isBlank, fun _ hx => hx, Leads.of_check hasync⟩)
      fun c hname => headedBy_of_calledName (Leads.of_check hname) hcontrol
  | indentation =>
    simp only [bounds?, bind, Option.bind_eq_some_iff, Option.some.injEq, Prod.mk.injEq] at hbounds
    obtain ⟨-, -, -, -, first, hfirst, hzero, -⟩ := hbounds
    rw [header, indentationHeader_eq] at hlead
    obtain ⟨d, hline, hlead⟩ := hlead.of_seq
    cases hline
    obtain ⟨d, hindent, hhead⟩ := hlead.of_seq
    obtain ⟨⟨text, hcaptured⟩, -⟩ := captured?_of_indentedHead hhead
    rw [hcaptured] at hfirst
    cases hfirst
    rw [← Reaches.rest_eq_of_offset_eq hindent.passes hzero]
    obtain ⟨e, hhead, hend⟩ := hhead.of_seq
    obtain ⟨e, hword, rfl⟩ := hhead.of_capture
    exact headed_of_optional hword (fun c hasync => ⟨_, fun _ hx => isBlank_of_space hx, hasync⟩)
      fun c hname => headedBy_of_definedName hname

theorem shapeAt_of_mem_spans {s : Span} (h : s ∈ shape.spans source) :
    shapeAt (source.drop s.start.toNat) = shape := by
  obtain ⟨f, start, stop, hoccurs, rfl⟩ := exists_occurs_of_mem (IsIn.start source) h
  obtain ⟨a, content, hreach, rfl, hcontent, hfills⟩ := standsAlone_of_occurs hoccurs
  obtain ⟨lead, hsource, hlead⟩ := (hoccurs.isIn.reaches hreach).source_eq
  have hdrop : source.drop a.offset = content ++ stop.rest := by
    rw [hlead, ← hcontent.rest_eq, hsource, List.drop_left]
  rw [Span.cut, Int.toNat_natCast, hdrop]
  exact ((headed_of_fills hfills).append stop.rest).shapeAt

end Shape

theorem Index.eq_of_start_eq {source : Text} {s t : Span} (hs : s ∈ (Index.of source).spans)
    (ht : t ∈ (Index.of source).spans) (h : s.start = t.start) : s = t := by
  obtain ⟨shape, hs⟩ := Index.exists_shape_of_mem hs
  obtain ⟨shape', ht⟩ := Index.exists_shape_of_mem ht
  have hshape := Shape.shapeAt_of_mem_spans hs
  rw [h, Shape.shapeAt_of_mem_spans ht] at hshape
  subst hshape
  -- two spans of one shape share no character, and each has one
  by_contra hne
  have hlt := (Shape.isProperIn_of_mem_spans hs).start_lt_stop
  have hlt' := (Shape.isProperIn_of_mem_spans ht).start_lt_stop
  have hdisjoint := Shape.disjoint_of_mem_spans hs ht hne
  omega

end CodeGraft
