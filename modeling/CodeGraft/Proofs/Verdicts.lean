import CodeGraft.Proofs.Indexes
import CodeGraft.Proofs.NeededChars
import CodeGraft.Verdict

/-!
# Verdicts in closed form

A block of code stands for a part of a file exactly if it opens with no import and either holds up to three
callables or starts with the keyword of a function. So the order of the rules does not matter: no text
opens with an import and starts with such a keyword, and a block that is only a file extension holds no
callable that the rules could count.
-/

namespace CodeGraft

open Text Pattern Cursor

variable {code text word : Text} {words : List Text} {p q : Pattern} {a b : Cursor} {c : Char}

namespace Pattern

def OpensWith (words : List Text) (p : Pattern) : Prop :=
  ∀ a b, p.Leads a b → ∃ word ∈ words, word <+: a.rest

theorem opensWith_literal (h : word ∈ words) : (literal word).OpensWith words :=
  fun _ _ hlead => ⟨word, h, ⟨_, hlead.rest_of_literal.symm⟩⟩

theorem opensWith_anyWord {ws : List String} (h : ∀ w ∈ ws, w.toList ∈ words) :
    (anyWord ws).OpensWith words := by
  intro a b hlead
  obtain ⟨w, hw, hrest⟩ := hlead.rest_of_anyWord
  exact ⟨w.toList, h w hw, ⟨_, hrest.symm⟩⟩

theorem OpensWith.seq (hp : p.OpensWith words) : (p.seq q).OpensWith words := by
  intro a c hlead
  obtain ⟨b, hb, -⟩ := hlead.of_seq
  exact hp a b hb

theorem OpensWith.alt (hp : p.OpensWith words) (hq : q.OpensWith words) :
    (p.alt q).OpensWith words := by
  intro a b hlead
  rcases hlead.of_alt with hlead | hlead
  · exact hp a b hlead
  · exact hq a b hlead

theorem opensWith_anyOf {ps : List Pattern} (h : ∀ p ∈ ps, p.OpensWith words) :
    (anyOf ps).OpensWith words := by
  induction ps with
  | nil =>
    intro a b hlead
    obtain - | - | hfalse := hlead
    cases hfalse
  | cons p ps ih =>
    obtain ⟨hp, hps⟩ := List.forall_mem_cons.mp h
    cases ps with
    | nil => exact hp
    | cons q ps => exact hp.alt (ih hps)

theorem OpensWith.optional (hp : p.OpensWith words) (hq : q.OpensWith words) :
    ((optional p).seq q).OpensWith words := by
  intro a c hlead
  obtain ⟨b, hb, hc⟩ := hlead.of_seq
  rcases hb.of_alt with hb | hb
  · exact hp a b hb
  · cases hb
    exact hq a c hc

end Pattern

def importForms : Pattern := anyOf [
  cat ["import", wordEdge],
  cat ["from", someBlanks, oneOrMore (.one fun c => !isBlank c), someBlanks, "import", wordEdge],
  cat [anyWord ["const", "let", "var"], someBlanks, .many (charNotIn "\n"), "=", blanks, "require",
    blanks, "("],
  cat ["require", blanks, "("],
  cat ["#", blanks, "include", wordEdge],
  cat ["using", someBlanks, oneOrMore (.one fun c => isWordChar c || c = '.'), blanks, ";"],
  cat ["use", someBlanks, oneOrMore (.one fun c => isWordChar c || c = ':')],
  cat ["package", someBlanks, oneOrMore (.one fun c => isWordChar c || c = '.')]]

theorem importHead_eq : importHead = .seq blanks importForms := rfl

def importWords : List Text := List.map String.toList
  ["import", "from", "const", "let", "var", "require", "#", "using", "use", "package"]

def functionWords : List Text := List.map String.toList
  ["export", "async", "function", "def", "func", "fn"]

theorem exists_importWord (h : hasLeadingImports code = true) :
    ∃ word ∈ importWords, word <+: trimStart code := by
  obtain ⟨stop, hstop⟩ := Option.isSome_iff_exists.mp h
  rw [importHead_eq] at hstop
  obtain ⟨b, hblanks, hrest⟩ := (leads_of_attempt hstop).of_seq
  obtain ⟨gap, hcode, hgap⟩ := Leads.rest_of_many hblanks
  have hopens : importForms.OpensWith importWords := by
    refine opensWith_anyOf ?_
    simp only [List.forall_mem_cons, List.not_mem_nil, false_imp_iff, implies_true, and_true]
    refine ⟨?_, ?_, ?_, ?_, ?_, ?_, ?_, ?_⟩
    case refine_3 => exact .seq (opensWith_anyWord (by decide))
    all_goals exact .seq (opensWith_literal (by decide))
  obtain ⟨word, hmem, hprefix⟩ := hopens b stop hrest
  refine ⟨word, hmem, ?_⟩
  -- no word opens with a blank, so the blanks in front of it are all that is trimmed
  have hall : ∀ w ∈ importWords, w.head?.any (!isBlank ·) = true := by decide
  have hhead := hall word hmem
  obtain ⟨x, rest, rfl⟩ := List.exists_cons_of_ne_nil (l := word) (by rintro rfl; cases hhead)
  obtain ⟨more, hmore⟩ := hprefix
  have hx : isBlank x = false := by simpa using hhead
  have hstart : (Cursor.start code).fresh.rest = code := rfl
  rw [hstart, ← hmore, List.cons_append] at hcode
  rw [hcode, trimStart_append_cons (List.all_eq_true.mpr hgap) hx]
  exact ⟨more, rfl⟩

theorem exists_functionWord (h : startsWithFunctionKeyword code = true) :
    ∃ word ∈ functionWords, word <+: trim code := by
  obtain ⟨stop, hstop⟩ := Option.isSome_iff_exists.mp h
  have hopens : functionKeyword.OpensWith functionWords :=
    .optional (.seq (opensWith_literal (by decide)))
      (.optional (.seq (opensWith_literal (by decide)))
        (.seq (opensWith_anyWord (by decide))))
  exact hopens _ _ (leads_of_attempt hstop)

theorem not_startsWithFunctionKeyword (h : hasLeadingImports code = true) :
    startsWithFunctionKeyword code = false := by
  cases hkeyword : startsWithFunctionKeyword code with
  | false => rfl
  | true =>
    obtain ⟨word, hword, hprefix⟩ := exists_importWord h
    obtain ⟨keyword, hkeyword, hprefix'⟩ := exists_functionWord hkeyword
    have hapart : ∀ v ∈ importWords, ∀ w ∈ functionWords, ¬v <+: w ∧ ¬w <+: v := by decide
    obtain ⟨hnot, hnot'⟩ := hapart word hword keyword hkeyword
    rcases List.prefix_or_prefix_of_prefix hprefix (hprefix'.trans (trimEnd_isPrefix _)) with hle | hle
    · exact absurd hle hnot
    · exact absurd hle hnot'

theorem mem_trim_of_not_isBlank (hc : c ∈ text) (hblank : isBlank c = false) : c ∈ trim text := by
  obtain ⟨front, htext, hfront⟩ := exists_append_trimStart text
  obtain ⟨back, hstart, hback⟩ := exists_trimEnd_append (trimStart text)
  rw [htext, hstart] at hc
  have hout : ∀ blanks : Text, isBlankText blanks = true → c ∉ blanks := by
    intro blanks hblanks hmem
    rw [List.all_eq_true.mp hblanks c hmem] at hblank
    cases hblank
  rcases List.mem_append.mp hc with hc | hc
  · exact absurd hc (hout front hfront)
  · exact (List.mem_append.mp hc).resolve_right (hout back hback)

theorem mem_of_isBareExtension (h : isBareExtension code = true) (hc : c ∈ code) :
    isBlank c = true ∨ c = '.' ∨ isWordChar c = true := by
  cases hblank : isBlank c with
  | true => exact Or.inl rfl
  | false =>
    right
    have hmem := mem_trim_of_not_isBlank hc hblank
    rw [isBareExtension] at h
    split at h
    next word htrim =>
      rw [htrim, List.mem_cons] at hmem
      exact hmem.imp id (List.all_eq_true.mp (Bool.and_eq_true_iff.mp h).2 c)
    next => cases h

/-- A file extension holds no callable: there is no parenthesis and no equals sign in it. -/
theorem spans_eq_nil_of_isBareExtension (h : isBareExtension code = true) :
    (Index.of code).spans = [] := by
  have hmark : ∀ shape : Shape, isBlank shape.mark = false ∧ shape.mark ≠ '.' ∧
      isWordChar shape.mark = false := by
    rintro (_ | _ | _ | _) <;> decide
  have hnone : Shape.all.flatMap (·.spans code) = [] := by
    refine List.flatMap_eq_nil_iff.mpr fun shape _ => Shape.spans_eq_nil_of_not_mem fun hmem => ?_
    obtain ⟨hblank, hdot, hword⟩ := hmark shape
    rcases mem_of_isBareExtension h hmem with hmem | hmem | hmem
    · rw [hmem] at hblank
      cases hblank
    · exact hdot hmem
    · rw [hmem] at hword
      cases hword
  rw [Index.of, Index.spans_ofShapes, hnone]
  rfl

/-! ### The verdict -/

/-- In a block that opens with an import only the rule about imports speaks, or none does. -/
theorem decidingRule_of_hasLeadingImports (h : hasLeadingImports code = true) :
    decidingRule code = .importsWithStructure ∨ decidingRule code = .unmatched := by
  have hkeyword := not_startsWithFunctionKeyword h
  cases hstructure : definesType code || decide (3 < (Index.of code).spans.length) with
  | true => exact Or.inl (by simp [decidingRule, Rule.deciding, Rule.table, Rule.holds, h, hstructure])
  | false =>
    exact Or.inr
      (by simp [decidingRule, Rule.deciding, Rule.table, Rule.holds, h, hstructure, hkeyword])

/-- The rule about few callables would say the same without its test for file extensions. -/
theorem fewFunctions_holds (code : Text) :
    Rule.fewFunctions.holds code (Index.of code).spans.length =
      (decide (1 ≤ (Index.of code).spans.length ∧ (Index.of code).spans.length ≤ 3) &&
        !hasLeadingImports code) := by
  cases hbare : isBareExtension code with
  | false => simp [Rule.holds, hbare]
  | true => simp [Rule.holds, hbare, spans_eq_nil_of_isBareExtension hbare]

theorem extentOf_of_not_hasLeadingImports (h : hasLeadingImports code = false) :
    extentOf code = .part ↔
      (1 ≤ (Index.of code).spans.length ∧ (Index.of code).spans.length ≤ 3) ∨
        startsWithFunctionKeyword code = true := by
  have hfew := fewFunctions_holds code
  rw [h, Bool.not_false, Bool.and_true] at hfew
  have himports : Rule.importsWithStructure.holds code (Index.of code).spans.length = false := by
    simp [Rule.holds, h]
  rw [extentOf, decidingRule, Rule.deciding, Rule.table, List.find?_cons_of_neg (by simp [himports])]
  by_cases hcount : 1 ≤ (Index.of code).spans.length ∧ (Index.of code).spans.length ≤ 3
  · rw [decide_eq_true hcount] at hfew
    rw [List.find?_cons_of_pos hfew]
    simp [Rule.extent, hcount]
  · rw [decide_eq_false hcount] at hfew
    rw [List.find?_cons_of_neg (by simp [hfew])]
    cases hkeyword : startsWithFunctionKeyword code with
    | true => simp [Rule.holds, Rule.extent, hkeyword]
    | false => simp [Rule.holds, Rule.extent, hkeyword, hcount]

/-- A block stands for a part of a file exactly if it opens with no import and holds one to three callables
or starts with the keyword of a function. A block that opens with an import stands for a whole file,
whichever rule decides, and the test for file extensions never makes a difference. -/
theorem extentOf_eq_part_iff (code : Text) :
    (extentOf code = .part ↔ hasLeadingImports code = false ∧
      ((1 ≤ (Index.of code).spans.length ∧ (Index.of code).spans.length ≤ 3) ∨
        startsWithFunctionKeyword code = true)) ∧
    (hasLeadingImports code = true → extentOf code = .whole ∧
      (decidingRule code = .importsWithStructure ∨ decidingRule code = .unmatched)) ∧
    Rule.fewFunctions.holds code (Index.of code).spans.length =
      (decide (1 ≤ (Index.of code).spans.length ∧ (Index.of code).spans.length ≤ 3) &&
        !hasLeadingImports code) := by
  have hwhole : hasLeadingImports code = true → extentOf code = .whole := by
    intro h
    rw [extentOf]
    rcases decidingRule_of_hasLeadingImports h with hrule | hrule
    · rw [hrule]
      rfl
    · rw [hrule]
      rfl
  refine ⟨?_, fun h => ⟨hwhole h, decidingRule_of_hasLeadingImports h⟩, fewFunctions_holds code⟩
  cases h : hasLeadingImports code with
  | false =>
    rw [extentOf_of_not_hasLeadingImports h]
    exact ⟨fun hpart => ⟨rfl, hpart⟩, fun hpart => hpart.2⟩
  | true =>
    rw [hwhole h]
    exact ⟨fun hpart => (by cases hpart), fun hpart => (by cases hpart.1)⟩

end CodeGraft
