import CodeGraft.Pattern.Basic

/-!
# Walks through a text

Whatever a pattern tries at a place, it leads to the places that it hands on: they lie behind that
place in the same text, and what it captures lies on the way. All of this is said by relations
between two places, which compose.
-/

namespace CodeGraft

namespace Cursor

/-- The place `c'` lies behind the stretch `passed`, which starts at the place `c`. -/
structure Passes (c : Cursor) (passed : Text) (c' : Cursor) : Prop where
  rest_eq : c.rest = passed ++ c'.rest
  offset_eq : c'.offset = c.offset + passed.length

/-- What has been captured on the way from `c` to `c'` starts between the two. -/
def CapturesFrom (c c' : Cursor) : Prop :=
  ∀ k ∈ c'.captures, k ∈ c.captures ∨ (c.offset ≤ k.start ∧ k.start ≤ c'.offset)

/-- The place `c'` lies at or behind the place `c` of the same text. -/
def Reaches (c c' : Cursor) : Prop := ∃ passed, c.Passes passed c'

def IsIn (source : Text) (c : Cursor) : Prop := (Cursor.start source).Reaches c

theorem Passes.refl (c : Cursor) : c.Passes [] c := ⟨rfl, rfl⟩

theorem Passes.trans {a b c : Cursor} {p q : Text} (hab : a.Passes p b) (hbc : b.Passes q c) :
    a.Passes (p ++ q) c := by
  have hrest : a.rest = p ++ (q ++ c.rest) := by rw [hab.rest_eq, hbc.rest_eq]
  refine ⟨by rw [hrest, List.append_assoc], ?_⟩
  rw [hbc.offset_eq, hab.offset_eq, List.length_append, Nat.add_assoc]

theorem Passes.offset_le {a b : Cursor} {p : Text} (h : a.Passes p b) : a.offset ≤ b.offset := by
  have := h.offset_eq
  omega

theorem Passes.next (c : Cursor) : c.Passes (c.rest.take 1) c.next := by
  unfold Cursor.next
  cases hr : c.rest with
  | nil => exact ⟨by simp [hr], by simp⟩
  | cons x rest => exact ⟨by simp [hr], by simp⟩

theorem next_captures (c : Cursor) : c.next.captures = c.captures := by
  unfold Cursor.next
  cases c.rest <;> rfl

theorem Reaches.refl (c : Cursor) : c.Reaches c := ⟨[], Passes.refl c⟩

theorem Reaches.trans {a b c : Cursor} (hab : a.Reaches b) (hbc : b.Reaches c) : a.Reaches c := by
  obtain ⟨p, hp⟩ := hab
  obtain ⟨q, hq⟩ := hbc
  exact ⟨p ++ q, hp.trans hq⟩

theorem Reaches.offset_le {a b : Cursor} (h : a.Reaches b) : a.offset ≤ b.offset := by
  obtain ⟨p, hp⟩ := h
  exact hp.offset_le

theorem Reaches.next (c : Cursor) : c.Reaches c.next := ⟨_, Passes.next c⟩

theorem Reaches.skip (n : Nat) (c : Cursor) : c.Reaches (c.skip n) := by
  induction n generalizing c with
  | zero => exact Reaches.refl c
  | succ n ih => exact (Reaches.next c).trans (ih c.next)

theorem Passes.skip {c : Cursor} {passed rest : Text} (h : c.rest = passed ++ rest) :
    c.Passes passed (c.skip passed.length) := by
  induction passed generalizing c with
  | nil => exact Passes.refl c
  | cons x passed ih =>
    have hnext : c.Passes [x] c.next := by
      have := Passes.next c
      rwa [h] at this
    have hrest : c.next.rest = passed ++ rest := by
      have := hnext.rest_eq
      rw [h] at this
      simpa using this.symm
    exact hnext.trans (ih hrest)

theorem skip_min (n : Nat) (c : Cursor) : c.skip n = c.skip (min n c.rest.length) := by
  induction n generalizing c with
  | zero => rw [Nat.zero_min]
  | succ n ih =>
    cases hc : c.rest with
    | nil =>
      have hnext : c.next = c := by simp [Cursor.next, hc]
      rw [Cursor.skip, hnext, ih, hc, List.length_nil, Nat.min_zero, Nat.min_zero]
    | cons x rest =>
      have hrest : c.next.rest = rest := by simp [Cursor.next, hc]
      rw [Cursor.skip, ih, hrest, List.length_cons, Nat.add_min_add_right]
      rfl

theorem Passes.skip_of_le {c : Cursor} {n : Nat} (h : n ≤ c.rest.length) :
    c.Passes (c.rest.take n) (c.skip n) := by
  have hskip := Passes.skip (List.take_append_drop n c.rest).symm
  rwa [List.length_take_of_le h] at hskip

theorem CapturesFrom.refl (c : Cursor) : c.CapturesFrom c := fun _ hk => Or.inl hk

theorem CapturesFrom.trans {a b c : Cursor} (hab : a.CapturesFrom b) (hbc : b.CapturesFrom c)
    (hle : a.offset ≤ b.offset) (hle' : b.offset ≤ c.offset) : a.CapturesFrom c := by
  intro k hk
  rcases hbc k hk with hk | ⟨h1, h2⟩
  · rcases hab k hk with hk | ⟨h1, h2⟩
    · exact Or.inl hk
    · exact Or.inr ⟨h1, by omega⟩
  · exact Or.inr ⟨by omega, h2⟩

theorem IsIn.start (source : Text) : (Cursor.start source).IsIn source := Reaches.refl _

theorem IsIn.reaches {source : Text} {c c' : Cursor} (hc : c.IsIn source) (h : c.Reaches c') :
    c'.IsIn source :=
  Reaches.trans hc h

theorem IsIn.source_eq {source : Text} {c : Cursor} (hc : c.IsIn source) :
    ∃ lead, source = lead ++ c.rest ∧ c.offset = lead.length := by
  obtain ⟨lead, hlead⟩ := hc
  exact ⟨lead, hlead.rest_eq, by simpa [Cursor.start] using hlead.offset_eq⟩

theorem IsIn.offset_le {source : Text} {c : Cursor} (hc : c.IsIn source) :
    c.offset ≤ source.length := by
  obtain ⟨lead, hsource, hoffset⟩ := hc.source_eq
  simp [hsource, hoffset]

end Cursor

namespace Pattern

open Cursor Text

/-- The pattern leads from one place to another: it describes the stretch between them. Every turn of
a repetition moves on. -/
inductive Leads : Pattern → Cursor → Cursor → Prop
  | nothing (a : Cursor) : Leads .nothing a a
  | one {accepts : Char → Bool} {a : Cursor} {x : Char} {rest : Text} (hrest : a.rest = x :: rest)
      (hx : accepts x = true) : Leads (.one accepts) a a.next
  | check {holds : Option Char → Text → Bool} {a : Cursor} (h : holds a.before a.rest = true) :
      Leads (.check holds) a a
  | seq {p q : Pattern} {a b c : Cursor} (hp : Leads p a b) (hq : Leads q b c) :
      Leads (.seq p q) a c
  | first {p q : Pattern} {a b : Cursor} (h : Leads p a b) : Leads (.alt p q) a b
  | second {p q : Pattern} {a b : Cursor} (h : Leads q a b) : Leads (.alt p q) a b
  | manyDone (p : Pattern) (a : Cursor) : Leads (.many p) a a
  | manyMore {p : Pattern} {a b c : Cursor} (hturn : Leads p a b) (hmoves : a.offset < b.offset)
      (hrest : Leads (.many p) b c) : Leads (.many p) a c
  | fewDone (p : Pattern) (a : Cursor) : Leads (.few p) a a
  | fewMore {p : Pattern} {a b c : Cursor} (hturn : Leads p a b) (hmoves : a.offset < b.offset)
      (hrest : Leads (.few p) b c) : Leads (.few p) a c
  | capture {label : Label} {p : Pattern} {a b : Cursor} (h : Leads p a b) :
      Leads (.capture label p) a (b.capture a label)

theorem Leads.of_seq {p q : Pattern} {a c : Cursor} (h : (Pattern.seq p q).Leads a c) :
    ∃ b, p.Leads a b ∧ q.Leads b c := by
  cases h with
  | seq hp hq => exact ⟨_, hp, hq⟩

theorem Leads.of_alt {p q : Pattern} {a b : Cursor} (h : (Pattern.alt p q).Leads a b) :
    p.Leads a b ∨ q.Leads a b := by
  cases h with
  | first hp => exact Or.inl hp
  | second hq => exact Or.inr hq

theorem Leads.of_capture {label : Label} {p : Pattern} {a c : Cursor}
    (h : (Pattern.capture label p).Leads a c) : ∃ b, p.Leads a b ∧ c = b.capture a label := by
  cases h with
  | capture hp => exact ⟨_, hp, rfl⟩

theorem Leads.passes {p : Pattern} {a b : Cursor} (h : p.Leads a b) : ∃ passed, a.Passes passed b := by
  induction h with
  | nothing a => exact ⟨[], Passes.refl a⟩
  | @one _ a _ _ _ _ => exact ⟨_, Passes.next a⟩
  | check h => exact ⟨[], Passes.refl _⟩
  | seq _ _ ih1 ih2 => exact Reaches.trans ih1 ih2
  | first _ ih => exact ih
  | second _ ih => exact ih
  | manyDone p a => exact ⟨[], Passes.refl a⟩
  | manyMore _ _ _ ih1 ih2 => exact Reaches.trans ih1 ih2
  | fewDone p a => exact ⟨[], Passes.refl a⟩
  | fewMore _ _ _ ih1 ih2 => exact Reaches.trans ih1 ih2
  | capture _ ih =>
    obtain ⟨passed, hpassed⟩ := ih
    exact ⟨passed, hpassed.rest_eq, hpassed.offset_eq⟩

theorem Leads.offset_le {p : Pattern} {a b : Cursor} (h : p.Leads a b) : a.offset ≤ b.offset :=
  Reaches.offset_le h.passes

theorem Leads.capturesFrom {p : Pattern} {a b : Cursor} (h : p.Leads a b) : a.CapturesFrom b := by
  induction h with
  | nothing a => exact CapturesFrom.refl a
  | @one _ a _ _ _ _ =>
    intro k hk
    exact Or.inl (by rwa [next_captures] at hk)
  | check h => exact CapturesFrom.refl _
  | seq hp hq ih1 ih2 => exact ih1.trans ih2 hp.offset_le hq.offset_le
  | first _ ih => exact ih
  | second _ ih => exact ih
  | manyDone p a => exact CapturesFrom.refl a
  | manyMore hp _ hq ih1 ih2 => exact ih1.trans ih2 hp.offset_le hq.offset_le
  | fewDone p a => exact CapturesFrom.refl a
  | fewMore hp _ hq ih1 ih2 => exact ih1.trans ih2 hp.offset_le hq.offset_le
  | capture hp ih =>
    intro k hk
    rcases List.mem_cons.mp hk with rfl | hk
    · exact Or.inr ⟨Nat.le_refl _, hp.offset_le⟩
    · exact ih k hk

theorem repeatMost_cons (each : Attempt) (x : Char) (bound : Text) (a : Cursor)
    (k : Cursor → Option Cursor) :
    repeatMost each (x :: bound) a k =
      (each a fun b => if a.offset < b.offset then repeatMost each bound b k else none).or (k a) := by
  rw [repeatMost]
  split <;> simp_all

theorem repeatLeast_cons (each : Attempt) (x : Char) (bound : Text) (a : Cursor)
    (k : Cursor → Option Cursor) :
    repeatLeast each (x :: bound) a k = (k a).or
      (each a fun b => if a.offset < b.offset then repeatLeast each bound b k else none) := by
  rw [repeatLeast]
  split <;> simp_all

theorem attempt_seq (p q : Pattern) (a : Cursor) (k : Cursor → Option Cursor) :
    (seq p q).attempt a k = p.attempt a fun c => q.attempt c k := rfl

theorem attempt_alt (p q : Pattern) (a : Cursor) (k : Cursor → Option Cursor) :
    (alt p q).attempt a k = (p.attempt a k).or (q.attempt a k) := by
  rw [attempt]
  split <;> simp_all

theorem repeatMost_leads {p : Pattern} {r : Cursor}
    (hp : ∀ {a k}, p.attempt a k = some r → ∃ b, p.Leads a b ∧ k b = some r) {bound : Text}
    {a : Cursor} {k : Cursor → Option Cursor} (h : repeatMost p.attempt bound a k = some r) :
    ∃ b, (Pattern.many p).Leads a b ∧ k b = some r := by
  induction bound generalizing a with
  | nil => exact ⟨a, .manyDone p a, h⟩
  | cons x bound ih =>
    rw [repeatMost_cons, Option.or_eq_some_iff] at h
    rcases h with h | ⟨-, h⟩
    · obtain ⟨b, hturn, hb⟩ := hp h
      rw [Option.ite_none_right_eq_some] at hb
      obtain ⟨c, hrest, hc⟩ := ih hb.2
      exact ⟨c, .manyMore hturn hb.1 hrest, hc⟩
    · exact ⟨a, .manyDone p a, h⟩

theorem repeatLeast_leads {p : Pattern} {r : Cursor}
    (hp : ∀ {a k}, p.attempt a k = some r → ∃ b, p.Leads a b ∧ k b = some r) {bound : Text}
    {a : Cursor} {k : Cursor → Option Cursor} (h : repeatLeast p.attempt bound a k = some r) :
    ∃ b, (Pattern.few p).Leads a b ∧ k b = some r := by
  induction bound generalizing a with
  | nil => exact ⟨a, .fewDone p a, h⟩
  | cons x bound ih =>
    rw [repeatLeast_cons, Option.or_eq_some_iff] at h
    rcases h with h | ⟨-, h⟩
    · exact ⟨a, .fewDone p a, h⟩
    · obtain ⟨b, hturn, hb⟩ := hp h
      rw [Option.ite_none_right_eq_some] at hb
      obtain ⟨c, hrest, hc⟩ := ih hb.2
      exact ⟨c, .fewMore hturn hb.1 hrest, hc⟩

theorem attempt_leads {p : Pattern} {a r : Cursor} {k : Cursor → Option Cursor}
    (h : p.attempt a k = some r) : ∃ b, p.Leads a b ∧ k b = some r := by
  induction p generalizing a k with
  | nothing => exact ⟨a, .nothing a, h⟩
  | one accepts =>
    simp only [attempt] at h
    split at h
    next => cases h
    next x rest hrest =>
      rw [Option.ite_none_right_eq_some] at h
      exact ⟨a.next, .one hrest h.1, h.2⟩
  | check holds =>
    simp only [attempt, Option.ite_none_right_eq_some] at h
    exact ⟨a, .check h.1, h.2⟩
  | seq p q ihp ihq =>
    obtain ⟨b, hp, hb⟩ := ihp h
    obtain ⟨c, hq, hc⟩ := ihq hb
    exact ⟨c, .seq hp hq, hc⟩
  | alt p q ihp ihq =>
    rw [attempt_alt, Option.or_eq_some_iff] at h
    rcases h with h | ⟨-, h⟩
    · obtain ⟨b, hp, hb⟩ := ihp h
      exact ⟨b, .first hp, hb⟩
    · obtain ⟨b, hq, hb⟩ := ihq h
      exact ⟨b, .second hq, hb⟩
  | many p ih => exact repeatMost_leads ih h
  | few p ih => exact repeatLeast_leads ih h
  | capture label p ih =>
    obtain ⟨b, hp, hb⟩ := ih h
    exact ⟨b.capture a label, .capture hp, hb⟩

theorem leads_of_attempt {p : Pattern} {a b : Cursor} (h : p.attempt a some = some b) :
    p.Leads a b := by
  obtain ⟨c, hc, hsome⟩ := attempt_leads h
  cases hsome
  exact hc

def consumes : Pattern → Bool
  | .one _ => true
  | .seq p q => p.consumes || q.consumes
  | .alt p q => p.consumes && q.consumes
  | .capture _ p => p.consumes
  | _ => false

theorem Leads.offset_lt {p : Pattern} {a b : Cursor} (h : p.Leads a b) (hp : p.consumes = true) :
    a.offset < b.offset := by
  induction h with
  | one hrest hx => simp [Cursor.next, hrest]
  | seq hfirst hsecond ihp ihq =>
    have hle := hfirst.offset_le
    have hle' := hsecond.offset_le
    rcases Bool.or_eq_true_iff.mp hp with hp | hq
    · have := ihp hp
      omega
    · have := ihq hq
      omega
  | first _ ih => exact ih (Bool.and_eq_true_iff.mp hp).1
  | second _ ih => exact ih (Bool.and_eq_true_iff.mp hp).2
  | capture _ ih => exact ih hp
  | nothing | check | manyDone | manyMore | fewDone | fewMore => cases hp

theorem attempt_of_rest_nil {p : Pattern} (hp : p.consumes = true) {a : Cursor} (ha : a.rest = [])
    (k : Cursor → Option Cursor) : p.attempt a k = none := by
  refine Option.eq_none_iff_forall_ne_some.mpr fun r hr => ?_
  obtain ⟨b, hb, -⟩ := attempt_leads hr
  obtain ⟨passed, hpassed⟩ := hb.passes
  have hlt := hb.offset_lt hp
  have hrest := hpassed.rest_eq
  rw [ha, List.nil_eq_append_iff] at hrest
  rw [hpassed.offset_eq, hrest.1] at hlt
  exact absurd hlt (by simp)

def Every (T : (Option Char → Text → Bool) → Prop) (L : Label → Prop) : Pattern → Prop
  | .nothing | .one _ => True
  | .check holds => T holds
  | .seq p q | .alt p q => p.Every T L ∧ q.Every T L
  | .many p | .few p => p.Every T L
  | .capture label p => L label ∧ p.Every T L

section Every

variable {T : (Option Char → Text → Bool) → Prop} {L : Label → Prop}

@[simp] theorem every_cat (ps : List Pattern) : (cat ps).Every T L ↔ ∀ p ∈ ps, p.Every T L := by
  induction ps with
  | nil => simp [cat, Every]
  | cons p ps ih =>
    simp only [List.mem_cons, forall_eq_or_imp, ← ih]
    rfl

@[simp] theorem every_literal (text : Text) : (literal text).Every T L := by
  simp [literal, Every]

@[simp] theorem every_anyWord (word : String) (ws : List String) :
    (anyWord (word :: ws)).Every T L := by
  induction ws generalizing word with
  | nil => exact every_literal _
  | cons w ws ih => exact ⟨every_literal _, ih w⟩

@[simp] theorem every_optional (p : Pattern) : (optional p).Every T L ↔ p.Every T L := by
  simp [optional, Every]

@[simp] theorem every_oneOrMore (p : Pattern) : (oneOrMore p).Every T L ↔ p.Every T L := by
  simp [oneOrMore, Every]

@[simp] theorem every_oneOrMoreFew (p : Pattern) : (oneOrMoreFew p).Every T L ↔ p.Every T L := by
  simp [oneOrMoreFew, Every]

@[simp] theorem every_charIn (chars : String) : (charIn chars).Every T L := trivial

@[simp] theorem every_charNotIn (chars : String) : (charNotIn chars).Every T L := trivial

@[simp] theorem every_blanks : blanks.Every T L := trivial

@[simp] theorem every_someBlanks : someBlanks.Every T L := ⟨trivial, trivial⟩

@[simp] theorem every_indentation : indentation.Every T L := trivial

@[simp] theorem every_wordEdge :
    wordEdge.Every T L ↔ T fun before rest => isWordEdge before rest.head? := Iff.rfl

@[simp] theorem every_lineStart :
    lineStart.Every T L ↔ T fun before _ => before.all (· == '\n') := Iff.rfl

@[simp] theorem every_notAfter (accepts : Char → Bool) :
    (notAfter accepts).Every T L ↔ T fun before _ => !before.any accepts := Iff.rfl

end Every

/-! ### Fits and finds -/

theorem fitAt?_reaches {p : Pattern} {c c' : Cursor} (h : p.fitAt? c = some c') :
    c.Reaches c' := by
  obtain ⟨passed, hpassed⟩ := (leads_of_attempt h).passes
  exact ⟨passed, hpassed.rest_eq, hpassed.offset_eq⟩

/-- What a search has found: it starts at or behind the place searched from, its two ends lie one
behind the other, and all that it has captured lies between them. -/
structure Found.FoundFrom (c : Cursor) (f : Found) : Prop where
  start_reached : c.Reaches f.start
  stop_reached : f.start.Reaches f.stop
  captured : ∀ k ∈ f.stop.captures, f.start.offset ≤ k.start ∧ k.start ≤ f.stop.offset

theorem attempt_foundFrom {p : Pattern} {c c' : Cursor} (hc : c.captures = [])
    (h : p.attempt c some = some c') : (Found.mk c c').FoundFrom c := by
  have hb := leads_of_attempt h
  refine ⟨Reaches.refl c, hb.passes, ?_⟩
  intro k hk
  rcases hb.capturesFrom k hk with hk | hk
  · rw [hc] at hk
    cases hk
  · exact hk

theorem searchFrom_foundFrom {p : Pattern} {offset : Nat} {before : Option Char} {text : Text}
    {f : Found} (h : p.searchFrom offset before text = some f) :
    f.FoundFrom { offset, before, rest := text } := by
  induction text generalizing offset before with
  | nil =>
    simp only [searchFrom, Option.map_eq_some_iff] at h
    obtain ⟨stop, hstop, rfl⟩ := h
    exact attempt_foundFrom rfl hstop
  | cons x rest ih =>
    simp only [searchFrom] at h
    split at h
    next stop hstop =>
      cases h
      exact attempt_foundFrom rfl hstop
    next =>
      obtain ⟨⟨lead, hlead⟩, hpassed, hcap⟩ := ih h
      refine ⟨⟨x :: lead, ?_, ?_⟩, hpassed, hcap⟩
      · simpa using hlead.rest_eq
      · have := hlead.offset_eq
        simp only [List.length_cons] at this ⊢
        omega

theorem search?_foundFrom {p : Pattern} {c : Cursor} {f : Found} (h : p.search? c = some f) :
    f.FoundFrom c := by
  obtain ⟨⟨lead, hlead⟩, hpassed, hcap⟩ := searchFrom_foundFrom h
  exact ⟨⟨lead, hlead.rest_eq, hlead.offset_eq⟩, hpassed, hcap⟩

theorem search?_attempt {p : Pattern} {c : Cursor} {f : Found} (h : p.search? c = some f) :
    p.attempt f.start some = some f.stop ∧ f.start.captures = [] := by
  have hsearch : ∀ (text : Text) (offset : Nat) (before : Option Char),
      p.searchFrom offset before text = some f →
        p.attempt f.start some = some f.stop ∧ f.start.captures = [] := by
    intro text
    induction text with
    | nil =>
      intro offset before h
      obtain ⟨stop, hstop, rfl⟩ := Option.map_eq_some_iff.mp h
      exact ⟨hstop, rfl⟩
    | cons x rest ih =>
      intro offset before h
      simp only [searchFrom] at h
      split at h
      next stop hstop =>
        cases h
        exact ⟨hstop, rfl⟩
      next => exact ih _ _ h
  exact hsearch _ _ _ h

theorem search?_of_attempt {p : Pattern} {c stop : Cursor} (hc : c.captures = [])
    (h : p.attempt c some = some stop) : p.search? c = some ⟨c, stop⟩ := by
  obtain ⟨offset, before, rest, captures⟩ := c
  cases hc
  cases rest with
  | nil => simp [search?, searchFrom, h]
  | cons x rest => simp [search?, searchFrom, h]

theorem search?_cons {p : Pattern} {c : Cursor} {x : Char} {rest : Text} (hc : c.rest = x :: rest) :
    p.search? c = ((p.attempt c.fresh some).map (Found.mk c.fresh)).or (p.search? c.next) := by
  obtain ⟨offset, before, text, captures⟩ := c
  obtain rfl : text = x :: rest := hc
  simp only [search?, searchFrom, fresh, Cursor.next]
  cases p.attempt ⟨offset, before, x :: rest, []⟩ some <;> rfl

theorem search?_of_rest_nil {p : Pattern} (hp : p.consumes = true) {c : Cursor} (hc : c.rest = []) :
    p.search? c = none := by
  rw [search?, hc, searchFrom, attempt_of_rest_nil hp rfl]
  rfl

end Pattern

end CodeGraft
