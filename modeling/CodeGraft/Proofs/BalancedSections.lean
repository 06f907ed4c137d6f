import CodeGraft.Proofs.Balance
import CodeGraft.Proofs.SectionPlans

/-!
# Braces around a section

Balanced code in place of a section leaves a balanced text balanced exactly if the section has opened as
many braces as it has closed. A section is bounded by blank lines and lone closing braces and takes at
most one closing line along, so this is not so for every section: one of a class with a blank line in its
body ends at that line.
-/

namespace CodeGraft

open Text

theorem Delimiter.surplus_of_isBlankText {text : Text} (h : isBlankText text = true) :
    Delimiter.brace.surplus text = 0 := by
  have hblank := List.all_eq_true.mp h
  refine surplus_of_not_mem (fun hmem => ?_) (fun hmem => ?_)
  · exact absurd (hblank _ hmem) (by decide)
  · exact absurd (hblank _ hmem) (by decide)

theorem braceDepth_eq (ls : List Text) : braceDepth ls = Delimiter.brace.surplus ls.flatten := rfl

theorem surplus_trailing (ls : List Text) : Delimiter.brace.surplus (trailing ls) = braceDepth ls := by
  induction ls with
  | nil => rfl
  | cons line ls ih =>
    have hfeed : Delimiter.brace.surplus ['\n'] = 0 := by decide
    rw [trailing_cons, Delimiter.surplus_cons, Delimiter.surplus_append, ih, hfeed, braceDepth_eq,
      braceDepth_eq, List.flatten_cons, Delimiter.surplus_append, Int.zero_add]

theorem surplus_unlines (ls : List Text) : Delimiter.brace.surplus (unlines ls) = braceDepth ls := by
  cases ls with
  | nil => rfl
  | cons line ls =>
    rw [unlines_cons_eq, Delimiter.surplus_append, surplus_trailing, braceDepth_eq, braceDepth_eq,
      List.flatten_cons, Delimiter.surplus_append]

/-- A lone closing brace closes one block and opens none. -/
theorem HoldsOnlyCloser.surplus {line : Text} (h : HoldsOnlyCloser line) :
    Delimiter.brace.surplus line = -1 := by
  obtain ⟨front, gap, back, rfl, hfront, hgap, hback⟩ := h
  have hcloser : Delimiter.brace.surplus ['}'] = -1 := by decide
  have hrest : Delimiter.brace.surplus back = 0 := by
    rcases hback with rfl | ⟨blanks, rfl, hblanks⟩
    · rfl
    · have hsemicolon : Delimiter.brace.surplus [';'] = 0 := by decide
      rw [Delimiter.surplus_cons, hsemicolon, Delimiter.surplus_of_isBlankText hblanks]
      rfl
  rw [Delimiter.surplus_append, Delimiter.surplus_cons, Delimiter.surplus_append, hcloser, hrest,
    Delimiter.surplus_of_isBlankText hfront, Delimiter.surplus_of_isBlankText hgap]
  rfl

namespace Sectioned

variable {s : Sectioned} {ds : List (Text × Text)} {up down closing : List Text} {hit : Text}

theorem surplus_text (h : s.body ≠ []) : Delimiter.brace.surplus s.text = braceDepth s.body := by
  have hreturns : Delimiter.brace.surplus s.returns = 0 := by
    refine Delimiter.surplus_of_not_mem (fun hmem => ?_) (fun hmem => ?_)
    · exact absurd (mem_returnsOf hmem) (by decide)
    · exact absurd (mem_returnsOf hmem) (by decide)
  have hwhole := congrArg Delimiter.brace.surplus (text_append_returns h)
  rw [Delimiter.surplus_append, hreturns, surplus_unlines] at hwhole
  omega

/-- A section whose lines have closed all blocks that they opened takes nothing along. -/
theorem Spreads.braceDepth_of_settled (h : s.Spreads ds up hit down closing)
    (hdepth : braceDepth (up ++ hit :: down) = 0) :
    braceDepth (up ++ hit :: (down ++ closing)) = 0 := by
  rcases h.closed with ⟨rfl, -⟩ | ⟨closer, -, hopen, -⟩
  · rwa [List.append_nil]
  · omega

theorem Spreads.braceDepth_of_open (h : s.Spreads ds up hit down closing)
    (hdepth : braceDepth (up ++ hit :: down) = 1)
    (hbelow : ∃ line ∈ (closing ++ s.below).head?, HoldsOnlyCloser line) :
    braceDepth (up ++ hit :: (down ++ closing)) = 0 := by
  obtain ⟨closer, rfl, hcloser⟩ : ∃ closer, closing = [closer] ∧ isLoneCloser closer = true := by
    rcases h.closed with ⟨rfl, hopen⟩ | ⟨closer, hclosing, -, hcloser⟩
    · obtain ⟨line, hline, hlone⟩ := hbelow
      exact absurd ⟨by omega, line, hline, isLoneCloser_iff.mpr hlone⟩ hopen
    · exact ⟨closer, hclosing, hcloser⟩
  have hsplit : up ++ hit :: (down ++ [closer]) = (up ++ hit :: down) ++ [closer] := by simp
  rw [hsplit, braceDepth_eq, List.flatten_append, Delimiter.surplus_append, ← braceDepth_eq, hdepth,
    List.flatten_singleton, (isLoneCloser_iff.mp hcloser).surplus]
  rfl

end Sectioned

/-! ### Plans -/

theorem Index.not_sharesName_of_nil {i j : Index} (h : j.spans = []) : ¬i.SharesName j := by
  simp [SharesName, h]

namespace Plan

/-- Balanced code that is put in place of a section of a balanced text leaves no brace unmatched exactly
if the section has opened as many braces as it has closed. This is so if its lines up to those that
bound it have, and if they have left one block open in front of a lone closing brace. -/
theorem of_sectionMatch_balances {existing newCode : Text} {insertNew : Bool}
    (htier : (Plan.of existing newCode insertNew).tier = .sectionMatch)
    (hexisting : Delimiter.brace.Balances existing) (hnew : Delimiter.brace.Balances newCode) :
    ∃ above up hit down closing below result,
      lines existing = above ++ (up ++ hit :: (down ++ closing)) ++ below ∧
      IsSection (declarations newCode) above up hit down closing below ∧
      (Plan.of existing newCode insertNew).apply existing = .ok result ∧
      (Delimiter.brace.Balances result ↔ braceDepth (up ++ hit :: (down ++ closing)) = 0) ∧
      (braceDepth (up ++ hit :: down) = 0 → Delimiter.brace.Balances result) ∧
      (braceDepth (up ++ hit :: down) = 1 →
        (∃ line ∈ (closing ++ below).head?, HoldsOnlyCloser line) →
        Delimiter.brace.Balances result) := by
  have hshares := not_sharesName_of_tier (htier.trans_ne (by simp))
  obtain ⟨sec, hsec⟩ : ∃ sec, sectionFor? existing newCode = some sec := by
    rcases of_not_sharesName insertNew hshares with ⟨sec, hsec, -⟩ | ⟨-, hwhole, -⟩
    · exact ⟨sec, hsec⟩
    · rw [hwhole] at htier
      cases htier
  obtain ⟨hlines, hbody⟩ := sectionFor?_lines hsec
  obtain ⟨up, hit, down, closing, hs⟩ := exists_spreads_of_sectionAround? hsec
  have hresult := Edit.apply_eq_weave (of_applicable existing newCode insertNew)
  have hpatched := eq_patched_of_sectionMatch htier hsec hresult
  rw [Sectioned.text_around hlines hbody] at hexisting
  have hbalances := hexisting.replace_iff hnew
  rw [← Sectioned.patched, ← hpatched, Sectioned.surplus_text hbody, hs.body_eq] at hbalances
  exact ⟨sec.above, up, hit, down, closing, sec.below, _, hs.body_eq ▸ hlines, hs.isSection, hresult,
    hbalances, fun hdepth => hbalances.mpr (hs.braceDepth_of_settled hdepth),
    fun hdepth hbelow => hbalances.mpr (hs.braceDepth_of_open hdepth hbelow)⟩

/-- A class without functions between two blank lines is a section that opens as many braces as it
closes. -/
theorem of_sectionMatch_balances_of_class :
    let existing : Text := "class A \x7b\n  a\n\x7d\n\nclass B \x7b\n  b\n\x7d\n"
    let newCode : Text := "class B \x7b\n  c\n\x7d"
    let above : List Text := ["class A \x7b", "  a", "\x7d", []]
    let body : List Text := ["class B \x7b", "  b", "\x7d"]
    let result : Text := "class A \x7b\n  a\n\x7d\n\nclass B \x7b\n  c\n\x7d\n"
    (Plan.of existing newCode false).tier = .sectionMatch ∧
      Delimiter.brace.Balances existing ∧ Delimiter.brace.Balances newCode ∧
      (∃ up hit down closing, up ++ hit :: (down ++ closing) = body ∧
        IsSection (declarations newCode) above up hit down closing [[]]) ∧
      (Plan.of existing newCode false).apply existing = .ok result ∧
      braceDepth body = 0 ∧ Delimiter.brace.Balances result := by
  intro existing newCode above body result
  have hshares : ¬(Index.of existing).SharesName (Index.of newCode) :=
    Index.not_sharesName_of_nil (by decide +kernel)
  have htier : (Plan.of existing newCode false).tier = .sectionMatch := by
    rw [tier_of_not_sharesName false hshares]
    decide +kernel
  have hexisting : Delimiter.brace.Balances existing := by decide +kernel
  have hnew : Delimiter.brace.Balances newCode := by decide +kernel
  obtain ⟨above', up, hit, down, closing, below', result', hlines, hsection, hresult,
    hbalances, -⟩ := of_sectionMatch_balances htier hexisting hnew
  have hfound : (sectionAround? (declarations newCode) (lines existing)).map
      (fun s => (s.above, s.body, s.below)) = some (above, body, [[]]) := by decide +kernel
  obtain ⟨rfl, hbody, rfl⟩ := hsection.parts_eq hlines hfound
  have happly : (Plan.of existing newCode false).apply existing = .ok result := by decide +kernel
  obtain rfl : result = result' := Except.ok.inj (happly.symm.trans hresult)
  have hdepth : braceDepth body = 0 := by decide +kernel
  rw [hbody] at hbalances
  exact ⟨htier, hexisting, hnew, ⟨up, hit, down, closing, hbody, hsection⟩, happly, hdepth,
    hbalances.mpr hdepth⟩

/-- The blank line in a class ends the section in front of the brace that closes the class, so this
brace is left. -/
theorem not_of_sectionMatch_balances :
    ¬∀ (existing newCode : Text) (insertNew : Bool) (result : Text),
      (Plan.of existing newCode insertNew).tier = .sectionMatch →
      Delimiter.brace.Balances existing → Delimiter.brace.Balances newCode →
      (Plan.of existing newCode insertNew).apply existing = .ok result →
      Delimiter.brace.Balances result := by
  intro hall
  let existing : Text := "class A \x7b\n\n  x\n\x7d"
  let newCode : Text := "class A \x7b\x7d"
  have hshares : ¬(Index.of existing).SharesName (Index.of newCode) :=
    Index.not_sharesName_of_nil (by decide +kernel)
  have htier : (Plan.of existing newCode false).tier = .sectionMatch := by
    rw [tier_of_not_sharesName false hshares]
    decide +kernel
  have hresult : (Plan.of existing newCode false).apply existing =
      .ok "class A \x7b\x7d\n\n  x\n\x7d" := by decide +kernel
  exact absurd (hall existing newCode false _ htier (by decide +kernel) (by decide +kernel) hresult)
    (by decide +kernel)

end Plan

end CodeGraft
