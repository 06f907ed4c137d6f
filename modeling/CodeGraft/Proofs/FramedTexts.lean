import CodeGraft.Proofs.Fits
import CodeGraft.Proofs.SpansAboveFeed
import CodeGraft.Proofs.Verdicts

/-!
# Texts between line feeds

Line feeds above and below a text do not matter: its callables are the same ones, further on by the line
feeds above, and it stands for as much of a file by the same rule. What a block opens with is looked for
behind blanks or at the start of a line, so a line feed above is one of those blanks.
-/

namespace CodeGraft

open Text Pattern Cursor

variable {text : Text} {p q : Pattern} {a : Cursor}

namespace Index

theorem foldl_addSpan_map {f : Span → Span} (hf : ∀ s, (f s).name = s.name) (spans found : List Span) :
    (found.map f).foldl addSpan (spans.map f) = (found.foldl addSpan spans).map f := by
  induction found generalizing spans with
  | nil => rfl
  | cons s found ih =>
    have hadd : addSpan (spans.map f) (f s) = (addSpan spans s).map f := by
      simp only [addSpan, List.any_map, Function.comp_def, hf]
      split
      next => rfl
      next => rw [List.map_append, List.map_singleton]
    rw [List.map_cons, List.foldl_cons, List.foldl_cons, hadd, ih]

theorem of_below (text : Text) : (of ('\n' :: text)).spans = (of text).spans.map (·.shifted 1) := by
  have hfold := foldl_addSpan_map (f := (·.shifted 1)) (fun _ => rfl) [] (Shape.all.flatMap (·.spans text))
  rw [of, of, spans_ofShapes, spans_ofShapes, ← hfold, List.map_flatMap]
  simp only [Shape.spans_below]
  rfl

theorem of_aboveFeed (text : Text) : (of (text ++ ['\n'])).spans = (of text).spans := by
  rw [of, of, spans_ofShapes, spans_ofShapes]
  simp only [Shape.spans_aboveFeed]

end Index

theorem attempt_blanks_cons {x : Char} {rest : Text} (ha : a.rest = x :: rest) (hx : isBlank x = true)
    (k : Cursor → Option Cursor) : blanks.attempt a k = (blanks.attempt a.next k).or (k a) := by
  have hnext : a.next.rest = rest := by simp [Cursor.next, ha]
  have hmoves : a.offset < a.next.offset := by simp [Cursor.next, ha]
  change repeatMost (one isBlank).attempt a.rest a k =
    (repeatMost (one isBlank).attempt a.next.rest a.next k).or (k a)
  rw [hnext, ha, repeatMost_cons, attempt_one ha hx, if_pos hmoves]

theorem attempt_blanks_seq_cons {x : Char} {rest : Text} (ha : a.rest = x :: rest) (hx : isBlank x = true)
    (hq : q.shuns x = true) (hconsumes : q.consumes = true) (k : Cursor → Option Cursor) :
    (Pattern.seq blanks q).attempt a k = (Pattern.seq blanks q).attempt a.next k := by
  have hnone : q.attempt a k = none :=
    attempt_eq_none_of_shuns hq hconsumes (by rw [ha]; rfl) k
  rw [attempt_seq, attempt_blanks_cons ha hx, hnone, Option.or_none, attempt_seq]

theorem hasLeadingImports_below (text : Text) :
    hasLeadingImports ('\n' :: text) = hasLeadingImports text := by
  have hlines : importHead.Every StartsLine fun _ => True := by
    simp [importHead, anyOf, Every, startsLine_wordEdge]
  have hskip : importHead.fitAt? (Cursor.start ('\n' :: text)) =
      importHead.fitAt? (Cursor.start text).below := by
    rw [importHead_eq]
    exact attempt_blanks_seq_cons rfl rfl rfl rfl some
  rw [hasLeadingImports, hasLeadingImports, fits, fits, hskip, fitAt?_below hlines, Option.isSome_map]

def typeForm : Pattern := cat [
  Pattern.optional (cat ["export", someBlanks]),
  Pattern.optional (cat ["default", someBlanks]),
  .many (cat [anyWord ["public", "private", "abstract", "final", "sealed", "data"], someBlanks]),
  anyWord ["class", "interface", "struct", "enum", "trait"],
  someBlanks, oneOrMore (.one isWordChar)]

theorem typeHead_eq : typeHead = .seq lineStart (.seq blanks typeForm) := rfl

theorem definesType_below (text : Text) : definesType ('\n' :: text) = definesType text := by
  have hlines : typeHead.Every StartsLine fun _ => True := by
    simp [typeHead, Every, startsLine_lineStart]
  have hskip : typeHead.attempt (Cursor.start ('\n' :: text)).fresh some =
      typeHead.attempt (Cursor.start text).below some := by
    rw [typeHead_eq]
    exact attempt_blanks_seq_cons rfl rfl rfl rfl some
  have hnext : (Cursor.start ('\n' :: text)).next = (Cursor.start text).below := rfl
  have hbelow : (typeHead.search? (Cursor.start text).below).isSome = definesType text := by
    rw [search?_below hlines, Option.isSome_map]
    rfl
  rw [definesType, occursIn, search?_cons rfl, hskip, hnext, ← hbelow]
  cases hr : typeHead.attempt (Cursor.start text).below some with
  | none => rfl
  | some stop =>
    rw [search?_of_attempt rfl hr]
    rfl

open Cut

theorem hasLeadingImports_aboveFeed (text : Text) :
    hasLeadingImports (text ++ ['\n']) = hasLeadingImports text := by
  have hrespects : importHead.Every ((aboveFeed text).Respects (text.length + 1)) fun _ => True := by
    simp [importHead, anyOf, Every, respects_wordEdge_aboveFeed]
  rw [hasLeadingImports, hasLeadingImports, fits, fits]
  rcases rel_cases (fitAt?_aboveFeed hrespects rfl (aboveFeed_start text)) with
    ⟨hc, hd⟩ | ⟨c, d, hc, hd, -⟩
  · rw [hc, hd]
  · rw [hc, hd]
    rfl

/-- In a text of one character there is no stretch that is not empty and ends with another one. -/
theorem search?_singleton_eq_none {x : Char} (hp : p.endsWithout x = true) (hconsumes : p.consumes = true)
    (ha : a.rest = [x]) : p.search? a = none := by
  refine Option.eq_none_iff_forall_ne_some.mpr fun f hf => ?_
  obtain ⟨lead, hlead⟩ := (search?_foundFrom hf).start_reached
  have hleads := leads_of_attempt (search?_attempt hf).1
  obtain ⟨passed, hpassed, hlast⟩ := hleads.passes_of_endsWithout hp
  have hlt := hleads.offset_lt hconsumes
  rw [hpassed.offset_eq] at hlt
  cases hend : passed.getLast? with
  | none =>
    rw [List.getLast?_eq_none_iff.mp hend] at hlt
    exact absurd hlt (Nat.lt_irrefl _)
  | some y =>
    have hmem : y ∈ a.rest := by
      rw [hlead.rest_eq, hpassed.rest_eq]
      exact List.mem_append_right _ (List.mem_append_left _ (List.mem_of_getLast? hend))
    rw [ha, List.mem_singleton] at hmem
    rw [hmem] at hend
    exact hlast hend

theorem definesType_aboveFeed (text : Text) : definesType (text ++ ['\n']) = definesType text := by
  have hrespects : typeHead.Every ((aboveFeed text).Respects (text.length + 1)) fun _ => True := by
    simp [typeHead, Every, respects_of_before]
  have hfeed : ∀ c : Cursor, c.rest = ['\n'] → typeHead.search? c = none :=
    fun _ hc => search?_singleton_eq_none rfl rfl hc
  rw [definesType, definesType, occursIn, occursIn]
  rcases search?_aboveFeed hrespects rfl hfeed (aboveFeed_start text) with
    ⟨ha, hb⟩ | ⟨f, g, ha, hb, -⟩ | ⟨f, c, ha, -, hstart, hnil⟩
  · rw [ha, hb]
  · rw [ha, hb]
    rfl
  · exact absurd hnil (rest_ne_nil_of_leads hstart (leads_of_attempt (search?_attempt ha).1) rfl)

/-! ### The rule that decides -/

/-- The rule that decides depends on how the block opens, on what is left of it when it is trimmed, and on
the number of its callables. -/
theorem decidingRule_congr {s t : Text} (himports : hasLeadingImports s = hasLeadingImports t)
    (htype : definesType s = definesType t) (htrim : trim s = trim t)
    (hcount : (Index.of s).spans.length = (Index.of t).spans.length) : decidingRule s = decidingRule t := by
  have hholds : ∀ count, (fun r : Rule => r.holds s count) = fun r => r.holds t count := by
    intro count
    funext r
    cases r with
    | importsWithStructure => rw [Rule.holds, Rule.holds, himports, htype]
    | fewFunctions =>
      rw [Rule.holds, Rule.holds, himports, isBareExtension, isBareExtension, htrim]
    | leadingFunctionKeyword =>
      rw [Rule.holds, Rule.holds, startsWithFunctionKeyword, startsWithFunctionKeyword, htrim]
    | unmatched => rfl
  rw [decidingRule, decidingRule, hcount, Rule.deciding, Rule.deciding, hholds]

/-- One text is read as another: it has the same callables `n` characters further on, and stands for as
much of a file by the same rule. -/
structure ReadsAs (n : Nat) (s t : Text) : Prop where
  spans_eq : (Index.of s).spans = (Index.of t).spans.map (·.shifted n)
  rule_eq : decidingRule s = decidingRule t

theorem ReadsAs.refl (text : Text) : ReadsAs 0 text text :=
  ⟨by simp only [Span.shifted_zero, List.map_id'], rfl⟩

theorem ReadsAs.trans {m n : Nat} {r s t : Text} (h : ReadsAs m r s) (h' : ReadsAs n s t) :
    ReadsAs (n + m) r t := by
  refine ⟨?_, h.rule_eq.trans h'.rule_eq⟩
  rw [h.spans_eq, h'.spans_eq, List.map_map]
  simp only [Function.comp_def, Span.shifted_shifted]

theorem readsAs_below (text : Text) : ReadsAs 1 ('\n' :: text) text := by
  have hspans := Index.of_below text
  refine ⟨hspans, decidingRule_congr (hasLeadingImports_below text) (definesType_below text) ?_ ?_⟩
  · have hblank : isBlankText ['\n'] = true := rfl
    exact trim_append_left_of_blank hblank text
  · rw [hspans, List.length_map]

theorem readsAs_aboveFeed (text : Text) : ReadsAs 0 (text ++ ['\n']) text := by
  have hspans := Index.of_aboveFeed text
  refine ⟨?_, decidingRule_congr (hasLeadingImports_aboveFeed text) (definesType_aboveFeed text)
    (trim_append_of_blank text rfl) (by rw [hspans])⟩
  simp only [hspans, Span.shifted_zero, List.map_id']

theorem readsAs_framed (above below : Nat) (text : Text) :
    ReadsAs above (List.replicate above '\n' ++ text ++ List.replicate below '\n') text := by
  induction above with
  | zero =>
    induction below with
    | zero =>
      simp only [List.replicate_zero, List.nil_append, List.append_nil]
      exact .refl text
    | succ below ih =>
      rw [List.replicate_succ', ← List.append_assoc]
      exact (readsAs_aboveFeed _).trans ih
  | succ above ih =>
    rw [List.replicate_succ, List.cons_append, List.cons_append]
    exact (readsAs_below _).trans ih

/-- Line feeds around a text do not matter: the index holds the same callables in the same order, further on
by the line feeds above the text, and the same rule gives the same verdict. -/
theorem Index.of_framed (above below : Nat) (text : Text) :
    (Index.of (List.replicate above '\n' ++ text ++ List.replicate below '\n')).spans =
        (Index.of text).spans.map (·.shifted above) ∧
      decidingRule (List.replicate above '\n' ++ text ++ List.replicate below '\n') =
        decidingRule text ∧
      extentOf (List.replicate above '\n' ++ text ++ List.replicate below '\n') = extentOf text := by
  have h := readsAs_framed above below text
  exact ⟨h.spans_eq, h.rule_eq, congrArg Rule.extent h.rule_eq⟩

end CodeGraft
