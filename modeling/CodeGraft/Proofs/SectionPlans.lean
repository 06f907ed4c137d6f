import CodeGraft.Proofs.Mentions
import CodeGraft.Proofs.Reapplying

/-!
# Plans that replace a section

A plan by section is one edit. It replaces the lines around the first one that mentions a
declaration of the new code: none of them is blank, and the lines next to them are ones that a
section starts behind or ends before. All other lines of the text stay as they are.
-/

namespace CodeGraft

open Text

def EndsWithOpener (line : Text) : Prop :=
  ∃ front blanks, line = front ++ '{' :: blanks ∧ isBlankText blanks = true

/-- A line that holds a closing brace, possibly a semicolon behind it, and otherwise only blanks. -/
def HoldsOnlyCloser (line : Text) : Prop :=
  ∃ front gap back, line = front ++ '}' :: (gap ++ back) ∧ isBlankText front = true ∧
    isBlankText gap = true ∧
    (back = [] ∨ ∃ blanks, back = ';' :: blanks ∧ isBlankText blanks = true)

variable {line : Text}

theorem opensBlock_iff : opensBlock line = true ↔ EndsWithOpener line := by
  rw [opensBlock, decide_eq_true_eq]
  constructor
  · intro h
    obtain ⟨blanks, hline, hblanks⟩ := exists_trimEnd_append line
    obtain ⟨front, hfront⟩ := List.getLast?_eq_some_iff.mp h
    refine ⟨front, blanks, ?_, hblanks⟩
    rw [hfront, List.append_assoc, List.singleton_append] at hline
    exact hline
  · intro h
    obtain ⟨front, blanks, rfl, hblanks⟩ := h
    rw [trimEnd_append_cons front hblanks (by decide), List.getLast?_concat]

theorem isLoneCloser_iff : isLoneCloser line = true ↔ HoldsOnlyCloser line := by
  constructor
  · intro h
    obtain ⟨front, hfront, hfrontBlank⟩ := exists_append_trimStart line
    obtain ⟨blanks, hblanks, hblanksBlank⟩ := exists_trimEnd_append (trimStart line)
    rw [isLoneCloser] at h
    split at h
    next rest htrim =>
      rw [trim] at htrim
      rw [htrim] at hblanks
      rw [hblanks] at hfront
      obtain ⟨gap, hgap, hgapBlank⟩ := exists_append_trimStart rest
      simp only [Bool.or_eq_true, List.isEmpty_iff, decide_eq_true_eq] at h
      rcases h with hnil | hsemicolon
      · rw [trimStart_eq_nil_iff] at hnil
        have hgapBlank : isBlankText (rest ++ blanks) = true := by
          rw [isBlankText, List.all_append, Bool.and_eq_true]
          exact ⟨hnil, hblanksBlank⟩
        exact ⟨front, rest ++ blanks, [], by simpa using hfront, hfrontBlank, hgapBlank, Or.inl rfl⟩
      · rw [hsemicolon] at hgap
        refine ⟨front, gap, ';' :: blanks, ?_, hfrontBlank, hgapBlank,
          Or.inr ⟨blanks, rfl, hblanksBlank⟩⟩
        rw [hfront, hgap]
        simp
    next => cases h
  · intro h
    obtain ⟨front, gap, back, rfl, hfront, hgap, hback⟩ := h
    rw [isLoneCloser, trim, trimStart_append_cons hfront (by decide)]
    rcases hback with rfl | ⟨blanks, rfl, hblanks⟩
    · have htrim := trimEnd_append_cons [] (c := '}') hgap (by decide)
      rw [List.nil_append, List.nil_append] at htrim
      rw [List.append_nil, htrim]
      rfl
    · have htrim := trimEnd_append_cons ('}' :: gap) (c := ';') hblanks (by decide)
      rw [List.cons_append, List.cons_append] at htrim
      rw [htrim]
      simp [trimStart_append_cons hgap (show isBlank ';' = false by decide)]

theorem startsSection_iff : startsSection line = true ↔
    isBlankText line = true ∨ EndsWithOpener line ∨ HoldsOnlyCloser line := by
  rw [startsSection, Bool.or_eq_true, Bool.or_eq_true, opensBlock_iff, isLoneCloser_iff, or_assoc]

theorem endsSection_iff :
    endsSection line = true ↔ isBlankText line = true ∨ HoldsOnlyCloser line := by
  rw [endsSection, Bool.or_eq_true, isLoneCloser_iff]

theorem HoldsOnlyCloser.not_blank (h : HoldsOnlyCloser line) : isBlankText line = false := by
  obtain ⟨front, gap, back, rfl, -⟩ := h
  have hbrace : isBlank '}' = false := by decide
  simp [isBlankText, hbrace]

/-! ### Sections -/

/-- The lines `up`, `hit`, `down` and `closing` are the section of some declarations among the lines
`above` and `below` them. -/
structure IsSection (ds : List (Text × Text)) (above up : List Text) (hit : Text)
    (down closing below : List Text) : Prop where
  unmentioned : ∀ line ∈ above ++ up, ∀ d ∈ ds, ¬Mentions line d
  mentioned : ∃ d ∈ ds, Mentions hit d
  not_blank : ∀ line ∈ up ++ hit :: (down ++ closing), isBlankText line = false
  above_bound : ∀ line ∈ above.getLast?,
    isBlankText line = true ∨ EndsWithOpener line ∨ HoldsOnlyCloser line
  up_inner : ∀ line ∈ up, ¬EndsWithOpener line ∧ ¬HoldsOnlyCloser line
  down_inner : ∀ line ∈ down, ¬HoldsOnlyCloser line
  below_bound : closing = [] → ∀ line ∈ below.head?, isBlankText line = true ∨
    HoldsOnlyCloser line ∧ braceDepth (up ++ hit :: down) ≤ 0
  closing_eq : closing = [] ∨ ∃ closer, closing = [closer] ∧ HoldsOnlyCloser closer ∧
    0 < braceDepth (up ++ hit :: down)

theorem Sectioned.Spreads.isSection {s : Sectioned} {newCode : Text} {up : List Text} {hit : Text}
    {down closing : List Text} (h : s.Spreads (declarations newCode) up hit down closing) :
    IsSection (declarations newCode) s.above up hit down closing s.below := by
  have hup : ∀ line ∈ up,
      isBlankText line = false ∧ ¬EndsWithOpener line ∧ ¬HoldsOnlyCloser line := by
    intro line hline
    have hopen := h.up_open line hline
    rw [← Bool.not_eq_true, startsSection_iff, not_or, not_or, Bool.not_eq_true] at hopen
    exact hopen
  have hdown : ∀ line ∈ down, isBlankText line = false ∧ ¬HoldsOnlyCloser line := by
    intro line hline
    have hopen := h.down_open line hline
    rw [← Bool.not_eq_true, endsSection_iff, not_or, Bool.not_eq_true] at hopen
    exact hopen
  have hclosing : closing = [] ∨ ∃ closer, closing = [closer] ∧ HoldsOnlyCloser closer ∧
      0 < braceDepth (up ++ hit :: down) := by
    rcases h.closed with ⟨hnil, -⟩ | ⟨closer, hcloser, hdepth, hlone⟩
    · exact Or.inl hnil
    · exact Or.inr ⟨closer, hcloser, isLoneCloser_iff.mp hlone, hdepth⟩
  refine ⟨?_, mentionsAny_iff.mp h.mentioned, ?_, ?_, fun line hline => (hup line hline).2,
    fun line hline => (hdown line hline).2, ?_, hclosing⟩
  · intro line hline d hd hmentions
    have hnot := h.unmentioned line hline
    rw [mentionsAny_iff.mpr ⟨d, hd, hmentions⟩] at hnot
    cases hnot
  · intro line hline
    rcases List.mem_append.mp hline with hline | hline
    · exact (hup line hline).1
    rcases List.mem_cons.mp hline with rfl | hline
    · exact not_isBlankText_of_mentionsAny h.mentioned
    rcases List.mem_append.mp hline with hline | hline
    · exact (hdown line hline).1
    · rcases hclosing with rfl | ⟨closer, rfl, hcloser, -⟩
      · cases hline
      · rw [List.mem_singleton.mp hline]
        exact hcloser.not_blank
  · intro line hline
    rw [← startsSection_iff]
    exact h.above_bounds line (by rwa [List.head?_reverse])
  · intro hnil line hline
    have hbelow := h.below_bounds line (by rwa [hnil, List.nil_append])
    rcases endsSection_iff.mp hbelow with hblank | hcloser
    · exact Or.inl hblank
    · refine Or.inr ⟨hcloser, ?_⟩
      by_contra hdepth
      rcases h.closed with ⟨-, hopen⟩ | ⟨closer, heq, -⟩
      · exact hopen ⟨by omega, line, hline, isLoneCloser_iff.mpr hcloser⟩
      · rw [hnil] at heq
        cases heq

section

variable {newCode hit : Text} {above up down closing below : List Text}

theorem IsSection.spreads (h : IsSection (declarations newCode) above up hit down closing below) :
    Sectioned.Spreads (declarations newCode)
      ⟨above, up ++ hit :: (down ++ closing), below, up.length⟩ up hit down closing := by
  have hup : ∀ line ∈ up, startsSection line = false := by
    intro line hline
    have hblank := h.not_blank line (List.mem_append_left _ hline)
    rw [← Bool.not_eq_true, startsSection_iff, not_or, not_or, Bool.not_eq_true]
    exact ⟨hblank, h.up_inner line hline⟩
  have hdown : ∀ line ∈ down, endsSection line = false := by
    intro line hline
    have hblank := h.not_blank line (by simp [hline])
    rw [← Bool.not_eq_true, endsSection_iff, not_or, Bool.not_eq_true]
    exact ⟨hblank, h.down_inner line hline⟩
  refine ⟨rfl, rfl, ?_, mentionsAny_iff.mpr h.mentioned, hup, ?_, hdown, ?_, ?_⟩
  · intro line hline
    rw [← Bool.not_eq_true, mentionsAny_iff]
    rintro ⟨d, hd, hmentions⟩
    exact h.unmentioned line hline d hd hmentions
  · intro line hline
    exact startsSection_iff.mpr (h.above_bound line (by rwa [List.head?_reverse] at hline))
  · intro line hline
    rw [endsSection_iff]
    rcases h.closing_eq with hnil | ⟨closer, rfl, hcloser, -⟩
    · rw [hnil, List.nil_append] at hline
      exact (h.below_bound hnil line hline).imp_right And.left
    · obtain rfl := Option.some.inj hline
      exact Or.inr hcloser
  · rcases h.closing_eq with hnil | ⟨closer, heq, hcloser, hdepth⟩
    · refine Or.inl ⟨hnil, ?_⟩
      rintro ⟨hdepth, line, hline, hlone⟩
      have hcloser := isLoneCloser_iff.mp hlone
      rcases h.below_bound hnil line hline with hblank | ⟨-, hle⟩
      · rw [hcloser.not_blank] at hblank
        cases hblank
      · omega
    · exact Or.inr ⟨closer, heq, hdepth, isLoneCloser_iff.mpr hcloser⟩

/-- There is one section at most among some lines. -/
theorem IsSection.parts_eq {ls front body rest : List Text}
    (h : IsSection (declarations newCode) above up hit down closing below)
    (hlines : ls = above ++ (up ++ hit :: (down ++ closing)) ++ below)
    (hfound : (sectionAround? (declarations newCode) ls).map (fun s => (s.above, s.body, s.below)) =
      some (front, body, rest)) :
    above = front ∧ up ++ hit :: (down ++ closing) = body ∧ below = rest := by
  rw [hlines, sectionAround?_of_spreads h.spreads] at hfound
  simpa using hfound

end

namespace Sectioned

theorem mem_returnsOf {line : Text} {c : Char} (h : c ∈ returnsOf line) : c = '\r' := by
  have hreturn := List.mem_takeWhile_imp (List.mem_reverse.mp h)
  simpa using hreturn

theorem getLast?_withoutReturns (line : Text) : (withoutReturns line).getLast? ≠ some '\r' := by
  have hnot := List.head?_dropWhile_not (fun c => decide (c = '\r')) line.reverse
  rw [withoutReturns, List.getLast?_reverse]
  intro hlast
  rw [hlast] at hnot
  simp at hnot

end Sectioned

namespace Plan

/-- A plan by section is one edit that puts the new code in. It replaces the section of the first
line that mentions a declaration of the new code, from the start of its first line to the end of its
last one, where carriage returns stay. All other lines stay as they are. -/
theorem of_sectionMatch_replaces {existing newCode : Text} {insertNew : Bool}
    (htier : (Plan.of existing newCode insertNew).tier = .sectionMatch) :
    ∃ above up hit down closing below,
      lines existing = above ++ (up ++ hit :: (down ++ closing)) ++ below ∧
      IsSection (declarations newCode) above up hit down closing below ∧
      ∃ front last returns, up ++ hit :: (down ++ closing) = front ++ [last ++ returns] ∧
        (∀ c ∈ returns, c = '\r') ∧ last.getLast? ≠ some '\r' ∧
        (Plan.of existing newCode insertNew).edits =
          [⟨linesLength above, linesLength (above ++ front) + last.length, newCode⟩] ∧
        ∃ result, (Plan.of existing newCode insertNew).apply existing = .ok result ∧
          lines result = above ++ lines (newCode ++ returns) ++ below := by
  have hshares := not_sharesName_of_tier (htier.trans_ne (by simp))
  obtain ⟨sec, hsec⟩ : ∃ sec, sectionFor? existing newCode = some sec := by
    rcases of_not_sharesName insertNew hshares with ⟨sec, hsec, -⟩ | ⟨-, hwhole, -⟩
    · exact ⟨sec, hsec⟩
    · rw [hwhole] at htier
      cases htier
  obtain ⟨hlines, hbody⟩ := sectionFor?_lines hsec
  obtain ⟨up, hit, down, closing, hs⟩ := exists_spreads_of_sectionAround? hsec
  have hresult := Edit.apply_eq_weave (of_applicable existing newCode insertNew)
  have hpatched := eq_patched_of_sectionMatch htier hsec hresult
  have hlast : sec.body.getLast?.getD [] = sec.body.getLast hbody := by
    rw [List.getLast?_eq_some_getLast hbody, Option.getD_some]
  refine ⟨sec.above, up, hit, down, closing, sec.below, hs.body_eq ▸ hlines, hs.isSection,
    sec.body.dropLast, Sectioned.withoutReturns (sec.body.getLast hbody), sec.returns, ?_, ?_,
    Sectioned.getLast?_withoutReturns _, ?_, _, hresult, ?_⟩
  · rw [← hs.body_eq, Sectioned.returns, hlast, Sectioned.withoutReturns_append_returnsOf,
      List.dropLast_concat_getLast]
  · intro c hc
    exact Sectioned.mem_returnsOf hc
  · rw [edits_of_sectionMatch htier hsec, Sectioned.stop, Sectioned.start, hlast,
      linesLength_append]
    rfl
  · rw [hpatched, lines_patched hsec]

/-- A class that is left open takes its closing brace along, and the carriage return behind that
stays. -/
theorem of_sectionMatch_replaces_of_class :
    let existing : Text := "one\n\nclass A \x7b\n  x\r\n\x7d\r\ntwo"
    let newCode : Text := "class A \x7b\n\x7d"
    let body : List Text := ["class A \x7b", "  x\r", "\x7d\r"]
    (Plan.of existing newCode false).tier = .sectionMatch ∧
      (∃ up hit down closing, up ++ hit :: (down ++ closing) = body ∧
        IsSection (declarations newCode) ["one", []] up hit down closing ["two"]) ∧
      (Plan.of existing newCode false).edits = [⟨5, 21, newCode⟩] ∧
      (Plan.of existing newCode false).apply existing = .ok "one\n\nclass A \x7b\n\x7d\r\ntwo" := by
  intro existing newCode body
  have hshares : ¬(Index.of existing).SharesName (Index.of newCode) := by
    have hnil : (Index.of newCode).spans = [] := by decide +kernel
    simp [Index.SharesName, hnil]
  have htier : (Plan.of existing newCode false).tier = .sectionMatch := by
    rw [tier_of_not_sharesName false hshares]
    decide +kernel
  obtain ⟨above, up, hit, down, closing, below, hlines, hsection, -⟩ :=
    of_sectionMatch_replaces htier
  have hfound : (sectionAround? (declarations newCode) (lines existing)).map
      (fun s => (s.above, s.body, s.below)) =
        some ((["one", []] : List Text), body, (["two"] : List Text)) := by decide +kernel
  obtain ⟨rfl, hbody, rfl⟩ := hsection.parts_eq hlines hfound
  have hedits : (Plan.of existing newCode false).edits = [⟨5, 21, newCode⟩] := by decide +kernel
  exact ⟨htier, ⟨up, hit, down, closing, hbody, hsection⟩, hedits, by decide +kernel⟩

end Plan

end CodeGraft
