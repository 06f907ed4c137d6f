import CodeGraft.Callable.Shape
import CodeGraft.Proofs.Walk

/-!
# What headers begin with and what they keep

A pattern that begins with a character does not look at what stands before it. A pattern without a
label keeps what was captured under it. With the stretches of words, blanks and names this says where
the header of a callable begins and which of its parts can be read in one way only.
-/

namespace CodeGraft

open Text Cursor

def isNameStart (c : Char) : Bool := c.isAlpha || c = '_' || c = '$'

theorem not_isWordChar_of_isBlank {c : Char} (h : isBlank c = true) : isWordChar c = false := by
  have hcode : ∀ n ∈ [0x9, 0xA, 0xB, 0xC, 0xD, 0x1C, 0x1D, 0x1E, 0x1F, 0x20, 0x85, 0xA0, 0x1680,
      0x2000, 0x2001, 0x2002, 0x2003, 0x2004, 0x2005, 0x2006, 0x2007, 0x2008, 0x2009, 0x200A,
      0x2028, 0x2029, 0x202F, 0x205F, 0x3000], isWordChar (Char.ofNat n) = false := by
    decide +kernel
  rw [← Char.ofNat_toNat c]
  refine hcode c.toNat ?_
  simp only [isBlank, Bool.or_eq_true, Bool.and_eq_true, decide_eq_true_eq, beq_iff_eq] at h
  simp only [List.mem_cons, List.not_mem_nil, or_false]
  omega

theorem not_isNameChar_of_isBlank {c : Char} (h : isBlank c = true) : isNameChar c = false := by
  have hdollar : c ≠ '$' := by
    rintro rfl
    exact absurd h (by decide)
  simp [isNameChar, not_isWordChar_of_isBlank h, hdollar]

theorem isWordChar_of_isAlpha {c : Char} (h : c.isAlpha = true) : isWordChar c = true := by
  have hcases : (decide (c.val ≥ 'A'.val ∧ c.val ≤ 'Z'.val) ||
    (decide (c.val ≥ 'a'.val) && decide (c.val ≤ 'z'.val))) = true := h
  simp only [Bool.or_eq_true, Bool.and_eq_true, decide_eq_true_eq] at hcases
  have hascii : c.val < 0x80 := by
    rcases hcases with ⟨-, hle⟩ | ⟨-, hle⟩
    · exact UInt32.lt_of_le_of_lt hle (by decide)
    · exact UInt32.lt_of_le_of_lt hle (by decide)
  have halnum : c.isAlphanum = true := Bool.or_eq_true_iff.mpr (Or.inl h)
  rw [isWordChar, if_pos hascii, halnum, Bool.true_or]

theorem isNameChar_of_isNameStart {c : Char} (h : isNameStart c = true) : isNameChar c = true := by
  simp only [isNameStart, Bool.or_eq_true, decide_eq_true_eq] at h
  rcases h with (h | rfl) | rfl
  · simp [isNameChar, isWordChar_of_isAlpha h]
  · rfl
  · rfl

theorem not_isBlank_of_isNameStart {c : Char} (h : isNameStart c = true) : isBlank c = false := by
  cases hc : isBlank c with
  | false => rfl
  | true =>
    have := isNameChar_of_isNameStart h
    rw [not_isNameChar_of_isBlank hc] at this
    cases this

def Cursor.anew (a : Cursor) : Cursor := { a with before := none }

namespace Pattern

/-- Every stretch of the pattern begins with a character of the class. -/
def Begins (starts : Char → Bool) : Pattern → Prop
  | .one accepts => ∀ x, accepts x = true → starts x = true
  | .seq p _ => p.Begins starts
  | .alt p q => p.Begins starts ∧ q.Begins starts
  | .capture _ p => p.Begins starts
  | _ => False

variable {starts : Char → Bool}

theorem Begins.attempt_anew {p : Pattern} (hp : p.Begins starts) (a : Cursor)
    (k : Cursor → Option Cursor) : p.attempt a.anew k = p.attempt a k := by
  induction p generalizing k with
  | one accepts =>
    simp only [attempt, anew]
    cases ha : a.rest with
    | nil => rfl
    | cons x rest => simp [Cursor.next, ha]
  | seq p q ihp => exact ihp hp _
  | alt p q ihp ihq => rw [attempt_alt, attempt_alt, ihp hp.1, ihq hp.2]
  | capture label p ih => exact ih hp _
  | nothing | check | many | few => exact hp.elim

theorem Begins.head {p : Pattern} (hp : p.Begins starts) {a b : Cursor} (h : p.Leads a b) :
    ∃ x rest, a.rest = x :: rest ∧ starts x = true := by
  induction h with
  | one hrest hx => exact ⟨_, _, hrest, hp _ hx⟩
  | seq _ _ ih => exact ih hp
  | first _ ih => exact ih hp.1
  | second _ ih => exact ih hp.2
  | capture _ ih => exact ih hp
  | nothing | check | manyDone | manyMore | fewDone | fewMore => exact hp.elim

theorem begins_literal {word : Text} (h : word.head?.any starts = true) :
    (literal word).Begins starts := by
  cases word with
  | nil => cases h
  | cons x word =>
    intro y hy
    rw [beq_iff_eq.mp hy]
    exact h

theorem begins_anyWord {w : String} {ws : List String}
    (h : (w :: ws).all (·.toList.head?.any starts) = true) : (anyWord (w :: ws)).Begins starts := by
  induction ws generalizing w with
  | nil =>
    rw [List.all_cons, Bool.and_eq_true] at h
    exact begins_literal h.1
  | cons v ws ih =>
    rw [List.all_cons, Bool.and_eq_true] at h
    exact ⟨begins_literal h.1, ih h.2⟩

theorem attempt_many_of_none {p : Pattern} {a : Cursor} {k : Cursor → Option Cursor}
    (h : ∀ bound, (p.attempt a fun b =>
      if a.offset < b.offset then repeatMost p.attempt bound b k else none) = none) :
    (Pattern.many p).attempt a k = k a := by
  simp only [attempt]
  cases a.rest with
  | nil => rfl
  | cons x rest => rw [repeatMost_cons, h, Option.none_or]

theorem attempt_indentation_of_head {a : Cursor} {x : Char} {rest : Text} (ha : a.rest = x :: rest)
    (hx : isBlank x = false) (k : Cursor → Option Cursor) : indentation.attempt a k = k a := by
  refine attempt_many_of_none fun bound => ?_
  have hblank : (" \t".toList.contains x) = false := by
    simp only [String.reduceToList, List.contains_cons, Bool.or_eq_false_iff, beq_eq_false_iff_ne]
    refine ⟨?_, ?_, rfl⟩
    · rintro rfl
      exact absurd hx (by decide)
    · rintro rfl
      exact absurd hx (by decide)
  simp only [charIn, attempt, ha, hblank]
  rfl

@[simp] theorem every_identifier {T : (Option Char → Text → Bool) → Prop} {L : Label → Prop} :
    identifier.Every T L := ⟨trivial, trivial⟩

theorem captured?_next (a : Cursor) (label : Label) : a.next.captured? label = a.captured? label := by
  rw [captured?, captured?, next_captures]

theorem captured?_capture_self (a b : Cursor) (label : Label) :
    (b.capture a label).captured? label =
      some ⟨label, a.offset, a.rest.take (b.offset - a.offset)⟩ := by
  simp [captured?, Cursor.capture]

theorem captured?_capture_of_ne (a b : Cursor) {label l : Label} (h : label ≠ l) :
    (b.capture a label).captured? l = b.captured? l := by
  simp [captured?, Cursor.capture, h]

theorem Leads.capturedText_eq {p : Pattern} {a b : Cursor} {word : Text} (h : p.Leads a b)
    (ha : a.rest = word ++ b.rest) (label : Label) :
    (b.capture a label).capturedText label = word := by
  obtain ⟨passed, hpassed⟩ := h.passes
  have hword : passed = word := List.append_cancel_right (hpassed.rest_eq.symm.trans ha)
  rw [capturedText, captured?_capture_self, hpassed.offset_eq, hpassed.rest_eq, hword]
  simp

theorem Leads.captured?_eq {p : Pattern} {a b : Cursor} {label : Label} (h : p.Leads a b)
    (hp : p.Every (fun _ => True) (· ≠ label)) : b.captured? label = a.captured? label := by
  induction h with
  | nothing | check | manyDone | fewDone => rfl
  | one => exact captured?_next _ _
  | seq _ _ ihp ihq => exact (ihq hp.2).trans (ihp hp.1)
  | first _ ih => exact ih hp.1
  | second _ ih => exact ih hp.2
  | manyMore _ _ _ ihp ihq => exact (ihq hp).trans (ihp hp)
  | fewMore _ _ _ ihp ihq => exact (ihq hp).trans (ihp hp)
  | capture _ ih => exact (captured?_capture_of_ne _ _ hp.1).trans (ih hp.2)

theorem Leads.rest_of_literal {word : Text} {a b : Cursor} (h : (literal word).Leads a b) :
    a.rest = word ++ b.rest := by
  induction word generalizing a with
  | nil => cases h; rfl
  | cons c word ih =>
    obtain ⟨d, hone, hrest⟩ := h.of_seq
    obtain - | ⟨ha, hx⟩ := hone
    have hnext := ih hrest
    simp only [Cursor.next, ha] at hnext
    rw [ha, hnext, List.cons_append, beq_iff_eq.mp hx]

theorem Leads.rest_of_anyWord {ws : List String} {a b : Cursor} (h : (anyWord ws).Leads a b) :
    ∃ word ∈ ws, a.rest = word.toList ++ b.rest := by
  induction ws with
  | nil =>
    obtain - | - | hfalse := h
    cases hfalse
  | cons word ws ih =>
    cases ws with
    | nil => exact ⟨word, by simp, h.rest_of_literal⟩
    | cons w ws =>
      rcases h.of_alt with hword | hrest
      · exact ⟨word, by simp, hword.rest_of_literal⟩
      · obtain ⟨v, hv, ha⟩ := ih hrest
        exact ⟨v, List.mem_cons_of_mem _ hv, ha⟩

/-- A repeated character class passes over characters of the class. -/
theorem Leads.rest_of_many {accepts : Char → Bool} {a b : Cursor}
    (h : (Pattern.many (.one accepts)).Leads a b) :
    ∃ passed, a.rest = passed ++ b.rest ∧ ∀ x ∈ passed, accepts x = true := by
  generalize hp : Pattern.many (.one accepts) = p at h
  induction h with
  | manyDone => exact ⟨[], rfl, by simp⟩
  | manyMore hturn _ _ _ ih =>
    cases hp
    obtain ⟨passed, hpassed, hall⟩ := ih rfl
    obtain - | ⟨ha, hx⟩ := hturn
    simp only [Cursor.next, ha] at hpassed
    refine ⟨_ :: passed, by rw [ha, hpassed, List.cons_append], ?_⟩
    intro y hy
    rcases List.mem_cons.mp hy with rfl | hy
    · exact hx
    · exact hall y hy
  | _ => cases hp

theorem Leads.passes_many {accepts : Char → Bool} {a b : Cursor}
    (h : (Pattern.many (.one accepts)).Leads a b) :
    ∃ passed, a.Passes passed b ∧ ∀ x ∈ passed, accepts x = true := by
  obtain ⟨passed, hpassed⟩ := h.passes
  obtain ⟨text, htext, hall⟩ := h.rest_of_many
  obtain rfl : passed = text := List.append_cancel_right (hpassed.rest_eq.symm.trans htext)
  exact ⟨passed, hpassed, hall⟩

theorem Leads.of_cat_append {ps qs : List Pattern} {a c : Cursor} (h : (cat (ps ++ qs)).Leads a c) :
    ∃ b, (cat ps).Leads a b ∧ (cat qs).Leads b c := by
  induction ps generalizing a with
  | nil => exact ⟨a, .nothing a, h⟩
  | cons p ps ih =>
    obtain ⟨d, hp, hrest⟩ := h.of_seq
    obtain ⟨b, hps, hqs⟩ := ih hrest
    exact ⟨b, .seq hp hps, hqs⟩

theorem Leads.of_cat_concat {ps : List Pattern} {q : Pattern} {a c : Cursor}
    (h : (cat (ps ++ [q])).Leads a c) : ∃ b, (cat ps).Leads a b ∧ q.Leads b c := by
  obtain ⟨b, hps, hq⟩ := h.of_cat_append
  obtain ⟨d, hq, hend⟩ := hq.of_seq
  cases hend
  exact ⟨b, hps, hq⟩

theorem Leads.passes_literal {word : Text} {a b : Cursor} (h : (literal word).Leads a b) :
    a.Passes word b := by
  obtain ⟨passed, hpassed⟩ := h.passes
  obtain rfl : passed = word := List.append_cancel_right (hpassed.rest_eq.symm.trans h.rest_of_literal)
  exact hpassed

theorem Leads.rest_of_oneOrMore {accepts : Char → Bool} {a b : Cursor}
    (h : (oneOrMore (.one accepts)).Leads a b) :
    ∃ x passed, a.rest = x :: (passed ++ b.rest) ∧ accepts x = true ∧
      ∀ y ∈ passed, accepts y = true := by
  obtain ⟨d, hone, hmany⟩ := h.of_seq
  obtain - | ⟨ha, hx⟩ := hone
  obtain ⟨passed, hpassed, hall⟩ := hmany.rest_of_many
  simp only [Cursor.next, ha] at hpassed
  exact ⟨_, passed, by rw [ha, hpassed], hx, hall⟩

theorem Leads.rest_of_identifier {a b : Cursor} (h : identifier.Leads a b) :
    ∃ x name, a.rest = x :: (name ++ b.rest) ∧ isNameStart x = true ∧
      ∀ y ∈ name, isNameChar y = true := by
  obtain ⟨d, hone, hmany⟩ := h.of_seq
  obtain - | ⟨ha, hx⟩ := hone
  obtain ⟨name, hname, hall⟩ := hmany.rest_of_many
  simp only [Cursor.next, ha] at hname
  exact ⟨_, name, by rw [ha, hname], hx, hall⟩

end Pattern

/-- A text is cut in one way only where a class of characters ends. -/
theorem append_cons_unique {accepts : Char → Bool} {l l' t t' : Text} {y y' : Char}
    (h : l ++ y :: t = l' ++ y' :: t') (hl : ∀ x ∈ l, accepts x = true)
    (hl' : ∀ x ∈ l', accepts x = true) (hy : accepts y = false) (hy' : accepts y' = false) :
    l = l' ∧ y = y' ∧ t = t' := by
  induction l generalizing l' with
  | nil =>
    cases l' with
    | nil => simpa using h
    | cons x l' =>
      simp only [List.cons_append, List.nil_append, List.cons.injEq] at h
      rw [h.1, hl' x (by simp)] at hy
      cases hy
  | cons x l ih =>
    cases l' with
    | nil =>
      simp only [List.cons_append, List.nil_append, List.cons.injEq] at h
      rw [← h.1, hl x (by simp)] at hy'
      cases hy'
    | cons x' l' =>
      simp only [List.cons_append, List.cons.injEq] at h
      obtain ⟨rfl, h⟩ := h
      obtain ⟨rfl, hyt⟩ := ih h (fun z hz => hl z (by simp [hz])) fun z hz => hl' z (by simp [hz])
      exact ⟨rfl, hyt⟩

theorem eq_of_append_mark {x : Char} {front front' back back' : Text} (hfront : x ∉ front)
    (hfront' : x ∉ front') (h : front ++ x :: back = front' ++ x :: back') : back = back' := by
  have hother : ∀ l : Text, x ∉ l → ∀ y ∈ l, (y != x) = true := by
    intro l hl y hy
    rw [bne_iff_ne]
    rintro rfl
    exact hl hy
  exact (append_cons_unique h (hother _ hfront) (hother _ hfront') (bne_self_eq_false x)
    (bne_self_eq_false x)).2.2

namespace Shape

open Pattern

/-! ### Bound names -/

/-- The part of the header of a bound callable that begins with the name. -/
def boundName : Pattern := cat [
  .capture .name identifier,
  blanks,
  Pattern.optional (cat [":", oneOrMoreFew (charNotIn "=\n")]),
  "=",
  blanks,
  Pattern.optional (cat ["async", someBlanks])]

def bindingKeyword : Pattern :=
  cat [wordEdge, .capture .keyword (anyWord ["const", "let", "var"]), someBlanks]

def modifier : Pattern :=
  cat [anyWord ["static", "public", "private", "protected", "readonly"], someBlanks]

def modifiedLine : Pattern := cat [lineStart, Pattern.indentation, .many modifier]

theorem assignedHeader_eq : assignedHeader = .seq (.alt bindingKeyword modifiedLine) boundName := rfl

/-- A bound name is the longest one that can be read, and a colon or an equals sign follows the blanks
behind it. -/
theorem boundName_rest {a b : Cursor} (h : boundName.Leads a b) :
    ∃ x name bs m more, a.rest = x :: name ++ (bs ++ m :: more) ∧ isNameStart x = true ∧
      (∀ y ∈ name, isNameChar y = true) ∧ (∀ y ∈ bs, isBlank y = true) ∧ (m = ':' ∨ m = '=') := by
  obtain ⟨c, hname, hrest⟩ := h.of_seq
  obtain ⟨d, hblanks, hrest⟩ := hrest.of_seq
  obtain ⟨e, htype, hrest⟩ := hrest.of_seq
  obtain ⟨f, hequals, -⟩ := hrest.of_seq
  obtain ⟨c, hidentifier, rfl⟩ := hname.of_capture
  obtain ⟨x, name, ha, hx, hname⟩ := hidentifier.rest_of_identifier
  obtain ⟨bs, hbs, hblank⟩ := Leads.rest_of_many hblanks
  obtain ⟨m, more, hmore, hm⟩ : ∃ m more, d.rest = m :: more ∧ (m = ':' ∨ m = '=') := by
    rcases htype.of_alt with htyped | huntyped
    · obtain ⟨f, hcolon, -⟩ := htyped.of_seq
      exact ⟨_, _, hcolon.rest_of_literal, Or.inl rfl⟩
    · cases huntyped
      exact ⟨_, _, hequals.rest_of_literal, Or.inr rfl⟩
  refine ⟨x, name, bs, m, more, ?_, hx, hname, hblank, hm⟩
  rw [ha, ← hmore, ← hbs]
  rfl

theorem boundName_begins : boundName.Begins isNameStart := fun _ hx => hx

def BehindWord (a b : Cursor) : Prop :=
  ∃ word y blanks, a.rest = word ++ y :: (blanks ++ b.rest) ∧ (∀ c ∈ word, isNameChar c = true) ∧
    isBlank y = true ∧ ∀ c ∈ blanks, isBlank c = true

/-- A bound name that begins with a word and blanks has no other bound name behind them: the word would
be all of it, and its colon or equals sign would stand where the other name begins. -/
theorem not_behindWord_of_boundName {a b c : Cursor} (h : boundName.Leads a b)
    (hword : BehindWord a c) (hc : ∃ z rest, c.rest = z :: rest ∧ isNameStart z = true) : False := by
  obtain ⟨x, name, bs, m, more, hrest, hx, hname, hbs, hm⟩ := boundName_rest h
  obtain ⟨word, y, blanks, ha, hword, hy, hblanks⟩ := hword
  obtain ⟨z, rest, hc, hz⟩ := hc
  have hmark : isNameChar m = false ∧ isBlank m = false ∧ isNameStart m = false := by
    rcases hm with rfl | rfl <;> decide
  obtain ⟨d, t, hdt, hd⟩ : ∃ d t, bs ++ m :: more = d :: t ∧ isNameChar d = false := by
    cases bs with
    | nil => exact ⟨m, more, rfl, hmark.1⟩
    | cons d bs => exact ⟨d, bs ++ m :: more, rfl, not_isNameChar_of_isBlank (hbs d (by simp))⟩
  have hchars : ∀ c ∈ x :: name, isNameChar c = true := by
    intro c hc
    rcases List.mem_cons.mp hc with rfl | hc
    · exact isNameChar_of_isNameStart hx
    · exact hname c hc
  rw [hrest, hdt, hc] at ha
  obtain ⟨-, rfl, rfl⟩ := append_cons_unique ha hchars hword hd (not_isNameChar_of_isBlank hy)
  have hblanks' : ∀ c ∈ d :: blanks, isBlank c = true := by
    intro c hc
    rcases List.mem_cons.mp hc with rfl | hc
    · exact hy
    · exact hblanks c hc
  obtain ⟨-, rfl, -⟩ := append_cons_unique hdt hbs hblanks' hmark.2.1
    (not_isBlank_of_isNameStart hz)
  rw [hz] at hmark
  exact absurd hmark.2.2 (by simp)

theorem behindWord_of_leads {ws : List String} (hws : ws.all (·.toList.all isNameChar) = true)
    {a b b' c : Cursor} (hword : (anyWord ws).Leads a b) (hb : b'.rest = b.rest)
    (hblanks : someBlanks.Leads b' c) : BehindWord a c := by
  obtain ⟨word, hmem, ha⟩ := hword.rest_of_anyWord
  obtain ⟨y, bs, hrest, hy, hbs⟩ := Leads.rest_of_oneOrMore hblanks
  have hchars := List.all_eq_true.mp (List.all_eq_true.mp hws word hmem)
  exact ⟨word.toList, y, bs, by rw [ha, ← hb, hrest], hchars, hy, hbs⟩

theorem behindWord_of_bindingKeyword {a b : Cursor} (h : bindingKeyword.Leads a b) :
    BehindWord a b := by
  obtain ⟨c, hedge, hrest⟩ := h.of_seq
  obtain ⟨d, hkeyword, hrest⟩ := hrest.of_seq
  obtain ⟨e, hblanks, hend⟩ := hrest.of_seq
  obtain ⟨d, hword, rfl⟩ := hkeyword.of_capture
  have hcapture : (d.capture c .keyword).rest = d.rest := rfl
  cases hend
  cases hedge
  exact behindWord_of_leads (by decide) hword hcapture hblanks

theorem behindWord_of_modifier {a b : Cursor} (h : modifier.Leads a b) : BehindWord a b := by
  obtain ⟨c, hword, hrest⟩ := h.of_seq
  obtain ⟨d, hblanks, hrest⟩ := hrest.of_seq
  cases hrest
  exact behindWord_of_leads (by decide) hword rfl hblanks

theorem modifier_begins : modifier.Begins isNameStart :=
  begins_anyWord (by decide)

theorem assignedHeader_of_boundName {a r : Cursor} (hstart : a.before = none)
    (h : boundName.attempt a some = some r) : assignedHeader.attempt a some = some r := by
  obtain ⟨b, hlead, -⟩ := attempt_leads h
  have hkeyword : (bindingKeyword.attempt a fun c => boundName.attempt c some) = none := by
    refine Option.eq_none_iff_forall_ne_some.mpr fun x hx => ?_
    obtain ⟨c, hc, hx⟩ := attempt_leads hx
    obtain ⟨d, hd, -⟩ := attempt_leads hx
    exact not_behindWord_of_boundName hlead (behindWord_of_bindingKeyword hc) (boundName_begins.head hd)
  have hmodifiers : ((Pattern.many modifier).attempt a fun c => boundName.attempt c some) =
      boundName.attempt a some := by
    refine attempt_many_of_none fun bound => Option.eq_none_iff_forall_ne_some.mpr fun x hx => ?_
    obtain ⟨c, hc, hx⟩ := attempt_leads hx
    rw [Option.ite_none_right_eq_some] at hx
    obtain ⟨d, hd, hx⟩ := repeatMost_leads attempt_leads hx.2
    obtain ⟨e, he, -⟩ := attempt_leads hx
    refine not_behindWord_of_boundName hlead (behindWord_of_modifier hc) ?_
    cases hd with
    | manyDone => exact boundName_begins.head he
    | manyMore hturn => exact modifier_begins.head hturn
  have hindentation : ∀ k, Pattern.indentation.attempt a k = k a := by
    obtain ⟨x, rest, ha, hx⟩ := boundName_begins.head hlead
    exact fun k => attempt_indentation_of_head ha (not_isBlank_of_isNameStart hx) k
  rw [assignedHeader_eq, attempt_seq, attempt_alt, hkeyword, Option.none_or]
  change (if a.before.all (· == '\n') then Pattern.indentation.attempt a fun c =>
    (Pattern.many modifier).attempt c fun d => boundName.attempt d some else none) = some r
  rw [hstart, hindentation, hmodifiers, h]
  rfl

theorem captured?_of_boundName {a b : Cursor} (h : boundName.Leads a b) :
    (∃ text, b.captured? .name = some ⟨.name, a.offset, text⟩) ∧
      b.captured? .keyword = a.captured? .keyword := by
  constructor
  · obtain ⟨c, hname, hrest⟩ := h.of_seq
    obtain ⟨d, -, rfl⟩ := hname.of_capture
    exact ⟨_, (hrest.captured?_eq (by simp [Every])).trans (captured?_capture_self _ _ _)⟩
  · exact h.captured?_eq (by simp [boundName, Every])

theorem captured?_of_bindingKeyword {a b : Cursor} (h : bindingKeyword.Leads a b) :
    ∃ text, b.captured? .keyword = some ⟨.keyword, a.offset, text⟩ := by
  obtain ⟨c, hedge, hrest⟩ := h.of_seq
  obtain ⟨d, hkeyword, hrest⟩ := hrest.of_seq
  obtain ⟨e, -, rfl⟩ := hkeyword.of_capture
  cases hedge
  exact ⟨_, (hrest.captured?_eq (by simp [Every])).trans (captured?_capture_self _ _ _)⟩

theorem captured?_of_modifiedLine {a b : Cursor} (h : modifiedLine.Leads a b) (label : Label) :
    b.captured? label = a.captured? label :=
  h.captured?_eq (by simp [modifiedLine, modifier, Every])

/-! ### Headers at the start of a text -/

theorem attempt_wordEdge (p : Pattern) (a : Cursor) (k : Cursor → Option Cursor) :
    (Pattern.seq wordEdge p).attempt a k =
      if isWordEdge a.before a.rest.head? then p.attempt a k else none := rfl

theorem attempt_optional (p q : Pattern) (a : Cursor) (k : Cursor → Option Cursor) :
    (Pattern.seq (Pattern.optional p) q).attempt a k =
      (p.attempt a fun c => q.attempt c k).or (q.attempt a k) :=
  attempt_alt p .nothing a fun c => q.attempt c k

theorem isWordEdge_of_begins {p : Pattern} (hp : p.Begins isWordChar) {a r : Cursor}
    {k : Cursor → Option Cursor} (h : p.attempt a k = some r) :
    isWordEdge a.anew.before a.anew.rest.head? = true := by
  obtain ⟨b, hb, -⟩ := attempt_leads h
  obtain ⟨x, rest, ha, hx⟩ := hp.head hb
  simp [anew, ha, isWordEdge, hx]

def asyncWord : Pattern := cat ["async", someBlanks]

theorem asyncWord_begins : asyncWord.Begins isWordChar :=
  begins_literal (by decide)

/-- The part of the header of a declaration that begins with the keyword. -/
def declarationWord : Pattern := cat [
  .alt
    (cat ["function", .alt (cat [blanks, "*", blanks]) someBlanks])
    (cat [anyWord ["func", "fn", "fun"], someBlanks,
      Pattern.optional (cat ["(", .many (charNotIn "()\n"), ")", blanks])]),
  .capture .name identifier,
  blanks,
  Pattern.optional (cat ["<", .many (charNotIn "<>\n"), ">", blanks]),
  "("]

theorem declarationWord_begins : declarationWord.Begins isWordChar :=
  ⟨begins_literal (by decide), begins_anyWord (by decide)⟩

theorem declarationHeader_eq :
    declarationHeader =
      .seq (Pattern.optional (.seq wordEdge asyncWord)) (.seq wordEdge declarationWord) := rfl

theorem declarationHeader_anew {a r : Cursor} (h : declarationHeader.attempt a some = some r) :
    declarationHeader.attempt a.anew some = some r := by
  rw [declarationHeader_eq, attempt_optional, attempt_wordEdge, attempt_wordEdge] at h ⊢
  have hedge : isWordEdge a.before a.rest.head? = true := by
    cases he : isWordEdge a.before a.rest.head? with
    | true => rfl
    | false =>
      rw [he] at h
      cases h
  rw [if_pos hedge, if_pos hedge] at h
  have hedge' : isWordEdge a.anew.before a.anew.rest.head? = true := by
    rcases Option.or_eq_some_iff.mp h with h | ⟨-, h⟩
    · exact isWordEdge_of_begins asyncWord_begins h
    · exact isWordEdge_of_begins declarationWord_begins h
  rw [if_pos hedge', if_pos hedge', asyncWord_begins.attempt_anew, declarationWord_begins.attempt_anew]
  exact h

/-- The part of a call-shaped header that begins with the name. -/
def calledName : Pattern := cat [.capture .name identifier, blanks, "("]

theorem calledName_begins : calledName.Begins isNameStart := fun _ hx => hx

theorem callHeader_eq :
    callHeader = .seq (Pattern.optional (.seq wordEdge asyncWord))
      (.seq (notAfter fun c => isNameChar c || c = '.') calledName) := rfl

theorem attempt_notAfter (accepts : Char → Bool) (p : Pattern) (a : Cursor)
    (k : Cursor → Option Cursor) :
    (Pattern.seq (notAfter accepts) p).attempt a k =
      if !a.before.any accepts then p.attempt a k else none := rfl

/-- The name of a call-shaped header follows no word, so the edge in front of it is the same at the start
of a text; in front of its other word there is an edge in any case. -/
theorem callHeader_anew {a r : Cursor} (h : callHeader.attempt a some = some r) :
    callHeader.attempt a.anew some = some r := by
  rw [callHeader_eq, attempt_optional, attempt_wordEdge, attempt_notAfter] at h ⊢
  rw [asyncWord_begins.attempt_anew, calledName_begins.attempt_anew]
  rcases Option.or_eq_some_iff.mp h with h | ⟨hnone, h⟩
  · rw [Option.ite_none_right_eq_some] at h
    have hedge := isWordEdge_of_begins asyncWord_begins h.2
    rw [if_pos hedge, h.2, Option.some_or]
  · rw [Option.ite_none_right_eq_some] at h
    have hbefore : a.before.any isWordChar = false := by
      have hname := h.1
      cases hb : a.before with
      | none => rfl
      | some c =>
        rw [hb] at hname
        simp_all [isNameChar]
    have hedge : isWordEdge a.anew.before a.anew.rest.head? = isWordEdge a.before a.rest.head? := by
      simp [isWordEdge, anew, hbefore]
    rw [hedge, hnone, Option.none_or, h.2]
    rfl

theorem bindingKeyword_anew {a r : Cursor} {k : Cursor → Option Cursor}
    (h : bindingKeyword.attempt a k = some r) : bindingKeyword.attempt a.anew k = some r := by
  have hbegins : (cat [.capture .keyword (anyWord ["const", "let", "var"]), someBlanks]).Begins
      isWordChar := begins_anyWord (by decide)
  have heq : bindingKeyword = .seq wordEdge
      (cat [.capture .keyword (anyWord ["const", "let", "var"]), someBlanks]) := rfl
  rw [heq, attempt_wordEdge, Option.ite_none_right_eq_some] at h
  rw [heq, attempt_wordEdge, if_pos (isWordEdge_of_begins hbegins h.2), hbegins.attempt_anew]
  exact h.2

def indentedWord : Pattern := cat ["async", oneOrMore (charIn " \t")]

/-- The part of the header of an indented callable that begins with the keyword. -/
def definedName : Pattern := cat [
  "def",
  oneOrMore (charIn " \t"),
  .capture .name (.seq (.one fun c => c.isAlpha || c = '_') (.many (.one isWordChar))),
  Pattern.indentation,
  "("]

theorem indentedWord_begins : indentedWord.Begins isNameStart :=
  begins_literal (by decide)

theorem definedName_begins : definedName.Begins isNameStart :=
  begins_literal (by decide)

/-- The part of the header of an indented callable behind the indentation. -/
def indentedHead : Pattern := cat [
  .capture .head (.seq (Pattern.optional indentedWord) definedName)]

theorem indentationHeader_eq :
    indentationHeader = .seq lineStart (.seq (.capture .indent Pattern.indentation) indentedHead) :=
  rfl

theorem attempt_indentedHead (a : Cursor) (k : Cursor → Option Cursor) :
    indentedHead.attempt a k =
      (indentedWord.attempt a fun c => definedName.attempt c fun d => k (d.capture a .head)).or
        (definedName.attempt a fun d => k (d.capture a .head)) :=
  attempt_optional indentedWord definedName a fun d => k (d.capture a .head)

theorem indentedHead_anew (a : Cursor) (k : Cursor → Option Cursor) :
    indentedHead.attempt a.anew k = indentedHead.attempt a k := by
  rw [attempt_indentedHead, attempt_indentedHead, indentedWord_begins.attempt_anew,
    definedName_begins.attempt_anew]
  rfl

theorem captured?_of_indentedHead {a b : Cursor} (h : indentedHead.Leads a b) :
    (∃ text, b.captured? .head = some ⟨.head, a.offset, text⟩) ∧
      b.captured? .indent = a.captured? .indent ∧
      ∃ x rest, a.rest = x :: rest ∧ isBlank x = false := by
  have hindent : b.captured? .indent = a.captured? .indent :=
    h.captured?_eq (by simp [indentedHead, indentedWord, definedName, Every])
  obtain ⟨c, hhead, hend⟩ := h.of_seq
  obtain ⟨d, hword, rfl⟩ := hhead.of_capture
  cases hend
  refine ⟨⟨_, captured?_capture_self _ _ _⟩, hindent, ?_⟩
  obtain ⟨x, rest, ha, hx⟩ : ∃ x rest, a.rest = x :: rest ∧ isNameStart x = true := by
    obtain ⟨e, hasync, hname⟩ := hword.of_seq
    rcases hasync.of_alt with hasync | hnone
    · exact indentedWord_begins.head hasync
    · cases hnone
      exact definedName_begins.head hname
  exact ⟨x, rest, ha, not_isBlank_of_isNameStart hx⟩

theorem indentationHeader_of_indentedHead {a r : Cursor} (hstart : a.before = none)
    (h : indentedHead.attempt (a.capture a .indent) some = some r) :
    indentationHeader.attempt a some = some r := by
  obtain ⟨b, hb, -⟩ := attempt_leads h
  obtain ⟨-, -, x, rest, hrest, hx⟩ := captured?_of_indentedHead hb
  have ha : a.rest = x :: rest := hrest
  rw [indentationHeader_eq]
  change (if a.before.all (· == '\n') then Pattern.indentation.attempt a fun c =>
    indentedHead.attempt (c.capture a .indent) some else none) = some r
  rw [hstart, attempt_indentation_of_head ha hx, h]
  rfl

theorem header_consumes (shape : Shape) : shape.header.consumes = true := by
  cases shape <;> rfl

end Shape

end CodeGraft
