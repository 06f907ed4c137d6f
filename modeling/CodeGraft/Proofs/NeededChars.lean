import CodeGraft.Proofs.Headers

/-!
# Characters in the stretches of a pattern

A pattern needs a character if each of its stretches holds it, and avoids one if none does; it shuns a
character if none of its stretches begins with it. So a text without a needed character holds no stretch of
the pattern, and where a shunned character stands next, none begins. Of every header one character is
needed: the parenthesis in front of the parameters, or the equals sign. No header begins with a line feed.
-/

namespace CodeGraft

open Text Cursor

/-- The place `b` lies behind a stretch without the character `x` that starts at `a`. -/
def Cursor.PassesNo (x : Char) (a b : Cursor) : Prop := ∃ passed, a.Passes passed b ∧ x ∉ passed

theorem Cursor.PassesNo.trans {x : Char} {a b c : Cursor} (hab : a.PassesNo x b) (hbc : b.PassesNo x c) :
    a.PassesNo x c := by
  obtain ⟨p, hp, hx⟩ := hab
  obtain ⟨q, hq, hx'⟩ := hbc
  exact ⟨p ++ q, hp.trans hq, by simp [hx, hx']⟩

namespace Pattern

variable {p q : Pattern} {x : Char} {a b c : Cursor}

/-- Every stretch of the pattern holds the character. -/
def Needs (x : Char) : Pattern → Prop
  | .one accepts => ∀ y, accepts y = true → y = x
  | .seq p q => p.Needs x ∨ q.Needs x
  | .alt p q => p.Needs x ∧ q.Needs x
  | .capture _ p => p.Needs x
  | _ => False

theorem Leads.passes_of_needs (h : p.Leads a b) (hp : p.Needs x) :
    ∃ passed, a.Passes passed b ∧ x ∈ passed := by
  induction h with
  | @one accepts a y rest hrest hy =>
    have hnext := Passes.next a
    rw [hrest, List.take_succ_cons, List.take_zero] at hnext
    exact ⟨[y], hnext, List.mem_singleton.mpr (hp y hy).symm⟩
  | seq hfirst hsecond ihp ihq =>
    rcases hp with hp | hq
    · obtain ⟨front, hfront, hmem⟩ := ihp hp
      obtain ⟨back, hback⟩ := hsecond.passes
      exact ⟨front ++ back, hfront.trans hback, List.mem_append_left _ hmem⟩
    · obtain ⟨front, hfront⟩ := hfirst.passes
      obtain ⟨back, hback, hmem⟩ := ihq hq
      exact ⟨front ++ back, hfront.trans hback, List.mem_append_right _ hmem⟩
  | first _ ih => exact ih hp.1
  | second _ ih => exact ih hp.2
  | capture _ ih =>
    obtain ⟨passed, hpassed, hmem⟩ := ih hp
    exact ⟨passed, ⟨hpassed.rest_eq, hpassed.offset_eq⟩, hmem⟩
  | nothing | check | manyDone | manyMore | fewDone | fewMore => exact hp.elim

theorem Leads.mem_of_needs (h : p.Leads a b) (hp : p.Needs x) : x ∈ a.rest := by
  obtain ⟨passed, hpassed, hmem⟩ := h.passes_of_needs hp
  rw [hpassed.rest_eq]
  exact List.mem_append_left _ hmem

theorem needs_cat {ps : List Pattern} (h : p ∈ ps) (hp : p.Needs x) : (cat ps).Needs x := by
  induction ps with
  | nil => cases h
  | cons q ps ih =>
    rcases List.mem_cons.mp h with rfl | h
    · exact Or.inl hp
    · exact Or.inr (ih h)

theorem needs_literal {word : Text} (h : x ∈ word) : (literal word).Needs x :=
  needs_cat (List.mem_map_of_mem h) fun _ hy => beq_iff_eq.mp hy

theorem attempt_eq_none_of_needs (hp : p.Needs x) (ha : x ∉ a.rest) (k : Cursor → Option Cursor) :
    p.attempt a k = none := by
  refine Option.eq_none_iff_forall_ne_some.mpr fun r hr => ?_
  obtain ⟨b, hb, -⟩ := attempt_leads hr
  exact ha (hb.mem_of_needs hp)

theorem fitAt?_eq_none_of_needs (hp : p.Needs x) (ha : x ∉ a.rest) : p.fitAt? a = none :=
  attempt_eq_none_of_needs hp (show x ∉ a.fresh.rest from ha) some

theorem search?_eq_none_of_needs (hp : p.Needs x) (ha : x ∉ a.rest) : p.search? a = none := by
  refine Option.eq_none_iff_forall_ne_some.mpr fun f hf => ?_
  obtain ⟨passed, hpassed⟩ := (search?_foundFrom hf).start_reached
  have hmem := (leads_of_attempt (search?_attempt hf).1).mem_of_needs hp
  rw [hpassed.rest_eq] at ha
  exact ha (List.mem_append_right _ hmem)

/-- No stretch of the pattern holds a character. -/
def Avoids (x : Char) : Pattern → Prop
  | .nothing | .check _ => True
  | .one accepts => accepts x = false
  | .seq p q | .alt p q => p.Avoids x ∧ q.Avoids x
  | .many p | .few p | .capture _ p => p.Avoids x

theorem Leads.passesNo (h : p.Leads a b) (hp : p.Avoids x) : a.PassesNo x b := by
  induction h with
  | nothing | check | manyDone | fewDone => exact ⟨[], Passes.refl _, by simp⟩
  | @one accepts a y rest hrest hy =>
    refine ⟨[y], ?_, ?_⟩
    · have := Passes.next a
      rwa [hrest] at this
    · rw [List.mem_singleton]
      rintro rfl
      exact absurd hy (by simp [show accepts x = false from hp])
  | seq _ _ ihp ihq => exact (ihp hp.1).trans (ihq hp.2)
  | first _ ih => exact ih hp.1
  | second _ ih => exact ih hp.2
  | manyMore _ _ _ ihp ihq => exact (ihp hp).trans (ihq hp)
  | fewMore _ _ _ ihp ihq => exact (ihp hp).trans (ihq hp)
  | capture _ ih =>
    obtain ⟨passed, hpassed, hx⟩ := ih hp
    exact ⟨passed, ⟨hpassed.rest_eq, hpassed.offset_eq⟩, hx⟩

theorem avoids_cat (ps : List Pattern) : (cat ps).Avoids x ↔ ∀ p ∈ ps, p.Avoids x := by
  induction ps with
  | nil => simp [cat, Avoids]
  | cons p ps ih =>
    simp only [List.mem_cons, forall_eq_or_imp, ← ih]
    rfl

theorem avoids_literal {word : Text} (h : x ∉ word) : (literal word).Avoids x := by
  rw [literal, avoids_cat]
  intro p hp
  obtain ⟨y, hy, rfl⟩ := List.mem_map.mp hp
  exact beq_eq_false_iff_ne.mpr fun heq => h (heq ▸ hy)

/-! ### First and last characters -/

/-- Whether no stretch of the pattern begins with the character. -/
def shuns (x : Char) : Pattern → Bool
  | .nothing | .check _ => true
  | .one accepts => !accepts x
  | .seq p q => p.shuns x && (p.consumes || q.shuns x)
  | .alt p q => p.shuns x && q.shuns x
  | .many p | .few p | .capture _ p => p.shuns x

theorem Leads.offset_eq_of_shuns (h : p.Leads a b) (hp : p.shuns x = true)
    (ha : a.rest.head? = some x) : b.offset = a.offset ∧ b.rest = a.rest := by
  induction h with
  | nothing | check | manyDone | fewDone => exact ⟨rfl, rfl⟩
  | @one accepts a y rest hrest hy =>
    rw [hrest, List.head?_cons, Option.some.injEq] at ha
    have hreject : (!accepts x) = true := hp
    rw [← ha, hy] at hreject
    cases hreject
  | seq hfirst _ ihp ihq =>
    simp only [shuns, Bool.and_eq_true, Bool.or_eq_true] at hp
    obtain ⟨hoffset, hrest⟩ := ihp hp.1 ha
    rcases hp.2 with hconsumes | hq
    · have := hfirst.offset_lt hconsumes
      omega
    · obtain ⟨hoffset', hrest'⟩ := ihq hq (hrest ▸ ha)
      exact ⟨hoffset'.trans hoffset, hrest'.trans hrest⟩
  | first _ ih => exact ih (Bool.and_eq_true_iff.mp hp).1 ha
  | second _ ih => exact ih (Bool.and_eq_true_iff.mp hp).2 ha
  | manyMore _ hmoves _ ih | fewMore _ hmoves _ ih =>
    have := (ih hp ha).1
    omega
  | capture _ ih => exact ih hp ha

theorem attempt_eq_none_of_shuns (hp : p.shuns x = true) (hconsumes : p.consumes = true)
    (ha : a.rest.head? = some x) (k : Cursor → Option Cursor) : p.attempt a k = none := by
  refine Option.eq_none_iff_forall_ne_some.mpr fun r hr => ?_
  obtain ⟨b, hb, -⟩ := attempt_leads hr
  have hlt := hb.offset_lt hconsumes
  have heq := (hb.offset_eq_of_shuns hp ha).1
  omega

def endsWithout (x : Char) : Pattern → Bool
  | .nothing | .check _ => true
  | .one accepts => !accepts x
  | .seq p q => q.endsWithout x && (q.consumes || p.endsWithout x)
  | .alt p q => p.endsWithout x && q.endsWithout x
  | .many p | .few p | .capture _ p => p.endsWithout x

theorem Leads.passes_of_endsWithout (h : p.Leads a b) (hp : p.endsWithout x = true) :
    ∃ passed, a.Passes passed b ∧ passed.getLast? ≠ some x := by
  -- behind a stretch that ends otherwise, one that is empty or ends otherwise changes nothing
  have hjoin : ∀ {a b c : Cursor}, (∃ passed, a.Passes passed b ∧ passed.getLast? ≠ some x) →
      (∃ passed, b.Passes passed c ∧ passed.getLast? ≠ some x) →
      ∃ passed, a.Passes passed c ∧ passed.getLast? ≠ some x := by
    rintro a b c ⟨front, hfront, hx⟩ ⟨back, hback, hx'⟩
    refine ⟨front ++ back, hfront.trans hback, ?_⟩
    rw [List.getLast?_append, ne_eq, Option.or_eq_some_iff, not_or]
    exact ⟨hx', fun h => hx h.2⟩
  induction h with
  | nothing | check | manyDone | fewDone => exact ⟨[], Passes.refl _, by simp⟩
  | @one accepts a y rest hrest hy =>
    have hnext := Passes.next a
    rw [hrest, List.take_succ_cons, List.take_zero] at hnext
    refine ⟨[y], hnext, ?_⟩
    rintro ⟨⟩
    have hreject : (!accepts y) = true := hp
    rw [hy] at hreject
    cases hreject
  | seq hfirst hsecond ihp ihq =>
    simp only [endsWithout, Bool.and_eq_true, Bool.or_eq_true] at hp
    rcases hp.2 with hconsumes | hends
    · obtain ⟨front, hfront⟩ := hfirst.passes
      obtain ⟨back, hback, hx⟩ := ihq hp.1
      have hlt := hsecond.offset_lt hconsumes
      rw [hback.offset_eq] at hlt
      refine ⟨front ++ back, hfront.trans hback, ?_⟩
      cases hlast : back.getLast? with
      | none =>
        rw [List.getLast?_eq_none_iff.mp hlast] at hlt
        exact absurd hlt (Nat.lt_irrefl _)
      | some y => rwa [List.getLast?_append, hlast, Option.some_or, ← hlast]
    · exact hjoin (ihp hends) (ihq hp.1)
  | first _ ih => exact ih (Bool.and_eq_true_iff.mp hp).1
  | second _ ih => exact ih (Bool.and_eq_true_iff.mp hp).2
  | manyMore _ _ _ ihp ihq | fewMore _ _ _ ihp ihq => exact hjoin (ihp hp) (ihq hp)
  | capture _ ih =>
    obtain ⟨passed, hpassed, hx⟩ := ih hp
    exact ⟨passed, ⟨hpassed.rest_eq, hpassed.offset_eq⟩, hx⟩

end Pattern

namespace Shape

open Pattern

/-- The character that no header of a shape can do without. -/
def mark : Shape → Char
  | declaration | callShaped | indentation => '('
  | assigned => '='

theorem header_needs (shape : Shape) : shape.header.Needs shape.mark := by
  cases shape with
  | declaration => exact needs_cat (p := literal "(") (by simp) (needs_literal (by decide))
  | assigned => exact needs_cat (p := literal "=") (by simp) (needs_literal (by decide))
  | callShaped => exact needs_cat (p := literal "(") (by simp) (needs_literal (by decide))
  | indentation =>
    refine Or.inr (Or.inr (Or.inl (Or.inr ?_)))
    exact needs_cat (p := literal "(") (by simp) (needs_literal (by decide))

theorem header_shuns_feed (shape : Shape) : shape.header.shuns '\n' = true := by
  cases shape <;> rfl

theorem spans_eq_nil_of_not_mem {shape : Shape} {source : Text} (h : shape.mark ∉ source) :
    shape.spans source = [] := by
  rw [spans, spansFrom, search?_eq_none_of_needs shape.header_needs (show shape.mark ∉
    (Cursor.start source).rest from h)]

end Shape

end CodeGraft
