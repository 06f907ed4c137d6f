import CodeGraft.Edit.Section
import CodeGraft.Proofs.Fits
import CodeGraft.Proofs.Headers

/-!
# Lines that mention a declaration

A line mentions a declaration when its keyword and its name stand in it one behind the other, with
blanks between them. The keyword is no end of a longer word there, and the name no start of a longer
one.
-/

namespace CodeGraft

open Text Pattern Cursor

variable {d : Text × Text} {ds : List (Text × Text)} {line code : Text}

def announcingWords : List Text := List.map String.toList
  ["function", "class", "def", "func", "fn", "interface", "struct", "enum", "trait"]

theorem keyword_of_declaration {a b : Cursor} (h : declaration.Leads a b) :
    b.capturedText .keyword ∈ announcingWords := by
  obtain ⟨c, hedge, hrest⟩ := h.of_seq
  obtain ⟨d, hkeyword, hrest⟩ := hrest.of_seq
  obtain ⟨d, hword, rfl⟩ := hkeyword.of_capture
  obtain ⟨word, hmem, ha⟩ := hword.rest_of_anyWord
  rw [capturedText, hrest.captured?_eq (by simp [Every])]
  have hcaptured := hword.capturedText_eq ha .keyword
  rw [capturedText] at hcaptured
  rw [hcaptured]
  exact List.mem_map_of_mem hmem

theorem keyword_of_mem_declarations (h : d ∈ declarations code) : d.1 ∈ announcingWords := by
  have hfrom : ∀ (bound : Nat) (c : Cursor), d ∈ declarationsFrom bound c →
      d.1 ∈ announcingWords := by
    intro bound
    induction bound with
    | zero =>
      intro c hd
      cases hd
    | succ bound ih =>
      intro c hd
      rw [declarationsFrom] at hd
      split at hd
      next => cases hd
      next found hfound =>
        rcases List.mem_cons.mp hd with rfl | hd
        · exact keyword_of_declaration (leads_of_attempt (search?_attempt hfound).1)
        · exact ih found.stop hd
  exact hfrom _ _ h

/-- The keyword and the name of a declaration stand in a line as words, with blanks between them. -/
def Mentions (line : Text) (d : Text × Text) : Prop :=
  ∃ front gap back, line = front ++ (d.1 ++ (gap ++ (d.2 ++ back))) ∧
    (∀ c ∈ front.getLast?, isWordChar c = false) ∧ gap ≠ [] ∧ isBlankText gap = true ∧
    ∀ c ∈ back.head?, isNameChar c = false

theorem isWordEdge_append_iff {word rest : Text} {before : Option Char}
    (hword : word.head?.any isWordChar = true) :
    isWordEdge before (word ++ rest).head? = true ↔ ∀ c ∈ before, isWordChar c = false := by
  cases word with
  | nil => cases hword
  | cons x word =>
    rw [List.head?_cons, Option.any_some] at hword
    refine Iff.trans ?_ (Option.any_eq_false isWordChar before)
    rw [List.cons_append, List.head?_cons, isWordEdge, Option.any_some, hword]
    simp

/-- What a mention consists of behind the word edge. -/
def namedDeclaration (d : Text × Text) : Pattern :=
  cat [literal d.1, someBlanks, literal d.2, notBefore isNameChar]

theorem mention_eq (d : Text × Text) : mention d = .seq wordEdge (namedDeclaration d) := rfl

theorem namedDeclaration_rest {a b : Cursor} (h : (namedDeclaration d).Leads a b) :
    ∃ gap back, a.rest = d.1 ++ (gap ++ (d.2 ++ back)) ∧ gap ≠ [] ∧ isBlankText gap = true ∧
      ∀ c ∈ back.head?, isNameChar c = false := by
  obtain ⟨c, hkeyword, hrest⟩ := h.of_seq
  obtain ⟨e, hblanks, hrest⟩ := hrest.of_seq
  obtain ⟨f, hname, hrest⟩ := hrest.of_seq
  obtain ⟨g, hend, -⟩ := hrest.of_seq
  obtain ⟨y, gap, hgap, hy, hall⟩ := hblanks.rest_of_oneOrMore
  cases hend with
  | check hbehind =>
    refine ⟨y :: gap, f.rest, ?_, by simp, ?_, ?_⟩
    · rw [hkeyword.rest_of_literal, hgap, hname.rest_of_literal, List.cons_append]
    · simpa [isBlankText, hy] using hall
    · exact (Option.any_eq_false _ _).mp (by simpa using hbehind)

theorem fits_namedDeclaration {gap back : Text} (hne : gap ≠ []) (hblank : isBlankText gap = true)
    (hback : ∀ c ∈ back.head?, isNameChar c = false) :
    (namedDeclaration d).Fits (d.1 ++ (gap ++ (d.2 ++ ([] ++ [])))) back := by
  obtain ⟨y, gap, rfl⟩ := List.exists_cons_of_ne_nil hne
  obtain ⟨hy, hgap⟩ := List.forall_mem_cons.mp (List.all_eq_true.mp hblank)
  have hblanks : someBlanks.Fits ([y] ++ gap) (d.2 ++ ([] ++ []) ++ back) :=
    (fits_one hy).seq (fits_many_one hgap)
  have hend : (notBefore isNameChar).Fits [] ([] ++ back) := by
    apply fits_check
    intro before
    rw [List.nil_append, (Option.any_eq_false _ _).mpr hback, Bool.not_false]
  exact (fits_literal d.1).seq (hblanks.seq ((fits_literal d.2).seq (hend.seq fits_nothing)))

theorem mention_attempt_iff {c : Cursor} (hd : d.1.head?.any isWordChar = true) :
    ((mention d).attempt c some).isSome = true ↔ ∃ gap back,
      c.rest = d.1 ++ (gap ++ (d.2 ++ back)) ∧ (∀ x ∈ c.before, isWordChar x = false) ∧ gap ≠ [] ∧
        isBlankText gap = true ∧ ∀ x ∈ back.head?, isNameChar x = false := by
  rw [mention_eq, Shape.attempt_wordEdge]
  constructor
  · intro h
    obtain ⟨stop, hstop⟩ := Option.isSome_iff_exists.mp h
    rw [Option.ite_none_right_eq_some] at hstop
    obtain ⟨hedge, hstop⟩ := hstop
    obtain ⟨gap, back, hrest, hgap⟩ := namedDeclaration_rest (leads_of_attempt hstop)
    rw [hrest] at hedge
    exact ⟨gap, back, hrest, (isWordEdge_append_iff hd).mp hedge, hgap⟩
  · intro h
    obtain ⟨gap, back, hrest, hbefore, hne, hblank, hback⟩ := h
    have hedge : isWordEdge c.before c.rest.head? = true := by
      rw [hrest]
      exact (isWordEdge_append_iff hd).mpr hbefore
    rw [if_pos hedge]
    exact fits_namedDeclaration hne hblank hback c some (by simp [hrest]) fun _ _ => rfl

theorem mention_occursIn_iff (hd : d.1.head?.any isWordChar = true) :
    (mention d).occursIn line = true ↔ Mentions line d := by
  simp only [occursIn_iff, mention_attempt_iff hd]
  constructor
  · intro h
    obtain ⟨front, rest, rfl, gap, back, rfl, hrest⟩ := h
    exact ⟨front, gap, back, rfl, hrest⟩
  · intro h
    obtain ⟨front, gap, back, rfl, hrest⟩ := h
    exact ⟨front, _, rfl, gap, back, rfl, hrest⟩

theorem mentionsAny_iff :
    mentionsAny (declarations code) line = true ↔ ∃ d ∈ declarations code, Mentions line d := by
  have hstart : ∀ word ∈ announcingWords, word.head?.any isWordChar = true := by decide
  rw [mentionsAny, List.any_eq_true]
  refine exists_congr fun d => and_congr_right fun hd => ?_
  exact mention_occursIn_iff (hstart _ (keyword_of_mem_declarations hd))

theorem not_isBlankText_of_mentionsAny (h : mentionsAny (declarations code) line = true) :
    isBlankText line = false := by
  obtain ⟨d, hd, front, gap, back, rfl, -⟩ := mentionsAny_iff.mp h
  have hword : ∀ word ∈ announcingWords, isBlankText word = false := by decide
  have hkeyword := hword _ (keyword_of_mem_declarations hd)
  rw [isBlankText] at hkeyword ⊢
  simp [List.all_append, hkeyword]

end CodeGraft
