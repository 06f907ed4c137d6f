import CodeGraft.Proofs.NameMatches
import CodeGraft.Proofs.Sections
import CodeGraft.Proofs.Unrelated

/-!
# Applying new code again

A plan changes nothing if each of its edits puts in what stands there already. So it is when a text
with callables is patched with itself. It need not be so when the same new code is applied a second
time, since the second plan is made for another text, and may find another place for the code there.
-/

namespace CodeGraft

open Text

namespace Edit

def Restores (text : Text) (e : Edit) : Prop := e.replacement = e.target text

theorem apply_eq_self {text : Text} {edits : List Edit} (h : Applicable text edits)
    (hrestores : ∀ e ∈ edits, e.Restores text) : apply text edits = .ok text := by
  have hsame : (sorted edits).map (·.replacement) = (sorted edits).map (target text) :=
    List.map_congr_left fun e he => hrestores e (mem_sorted.mp he)
  rw [apply_eq_weave h, hsame, ← eq_weave_targets h]

theorem apply_singleton {text : Text} {e : Edit} (h : Applicable text [e]) :
    apply text [e] =
      .ok (Text.slice text 0 e.start.toNat ++ e.replacement ++ text.drop e.stop.toNat) := by
  rw [apply_eq_weave h, sorted, List.mergeSort_singleton]
  simp [gaps, weave]

theorem apply_singleton_eq_self_iff {text : Text} {e : Edit} (h : Applicable text [e]) :
    apply text [e] = .ok text ↔ e.Restores text := by
  constructor
  · intro hself
    have hsplit := eq_weave_targets h
    rw [sorted, List.mergeSort_singleton] at hsplit
    simp only [gaps, weave, List.map_cons, List.map_nil, List.append_nil] at hsplit
    rw [apply_singleton h] at hself
    have hsame := (Except.ok.inj hself).trans hsplit
    rw [List.append_assoc, List.append_assoc] at hsame
    exact List.append_cancel_right (List.append_cancel_left hsame)
  · intro hrestores
    exact apply_eq_self h (by simpa using hrestores)

end Edit

namespace NameMatch

variable {text : Text} {insertNew : Bool}

theorem of_self_replaced {p : Span × Span}
    (h : p ∈ (NameMatch.of insertNew (Index.of text) (Index.of text)).replaced) :
    p.1 = p.2 ∧ p.2 ∈ (Index.of text).spans := by
  have hpicks := of_picks insertNew text text
  obtain ⟨hnew, hold, hname⟩ := hpicks.shared p h
  exact ⟨Index.eq_of_name_eq hnew hold hname, hold⟩

theorem of_self_added (insertNew : Bool) (text : Text) :
    (NameMatch.of insertNew (Index.of text) (Index.of text)).added = [] := by
  have hm := of_sound insertNew (Index.of text) (Index.of text)
  rw [List.eq_nil_iff_forall_not_mem]
  intro p hp
  have hmem := Index.mem_inOrder.mp (hm.added_sublist.subset (List.mem_map_of_mem hp))
  have hfind := Index.find?_eq_some_iff.mpr ⟨hmem, rfl⟩
  rw [(hm.added_new p hp).2.1] at hfind
  cases hfind

theorem of_self_restores {e : Edit}
    (h : e ∈ (NameMatch.of insertNew (Index.of text) (Index.of text)).edits text text) :
    e.Restores text := by
  let m := NameMatch.of insertNew (Index.of text) (Index.of text)
  cases hfirst : m.first? with
  | none =>
    rw [edits_eq_nil_iff.mpr (first?_eq_none_iff.mp hfirst)] at h
    cases h
  | some first =>
    rw [edits_eq_sorted hfirst, Edit.mem_sorted, placed, of_self_added, List.map_nil,
      List.append_nil] at h
    obtain ⟨⟨new, old⟩, hp, rfl⟩ := List.mem_map.mp h
    obtain ⟨heq, hold⟩ := of_self_replaced hp
    obtain rfl : new = old := heq
    change reindent _ _ _ = Text.slice _ _ _
    rw [reindent_self, (Index.isIn_of_mem hold).content_eq]
    rfl

end NameMatch

namespace Plan

variable {existing newCode text r : Text} {insertNew : Bool}

theorem sharesName_self (h : (Index.of text).spans ≠ []) :
    (Index.of text).SharesName (Index.of text) := by
  obtain ⟨s, hs⟩ := List.exists_mem_of_ne_nil _ h
  exact ⟨s, hs, s, hs, rfl⟩

theorem restores_of_self (insertNew : Bool) (h : (Index.of text).spans ≠ []) :
    ∀ e ∈ (Plan.of text text insertNew).edits, e.Restores text := by
  intro e he
  rw [(of_sharesName (sharesName_self h)).2] at he
  exact NameMatch.of_self_restores he

theorem apply_eq_self (hrestores : ∀ e ∈ (Plan.of text newCode insertNew).edits, e.Restores text) :
    (Plan.of text newCode insertNew).apply text = .ok text :=
  Edit.apply_eq_self (of_applicable text newCode insertNew) hrestores

/-- A text with callables that is patched with itself is matched by names, and stays as it is. -/
theorem of_self (insertNew : Bool) (h : (Index.of text).spans ≠ []) :
    (Plan.of text text insertNew).tier = .nameMatch ∧
      (Plan.of text text insertNew).apply text = .ok text :=
  ⟨(of_tier_iff text text insertNew).mpr (sharesName_self h),
    apply_eq_self (restores_of_self insertNew h)⟩

/-- Callables that lie in one another. -/
theorem of_self_of_nested :
    let text : Text := "function o(){ const h = function(){} }\nh(){}"
    (Index.of text).spans.map (·.name) = ["o", "h"] ∧
      (Plan.of text text true).tier = .nameMatch ∧
      (Plan.of text text true).apply text = .ok text := by
  intro text
  have hnames : (Index.of text).spans.map (·.name) = ["o", "h"] := by decide +kernel
  have hne : (Index.of text).spans ≠ [] := by
    intro hnil
    rw [hnil] at hnames
    cases hnames
  exact ⟨hnames, of_self true hne⟩

/-! ### The second time -/

theorem tier_of_not_sharesName (insertNew : Bool)
    (h : ¬(Index.of existing).SharesName (Index.of newCode)) :
    (Plan.of existing newCode insertNew).tier =
      if (sectionFor? existing newCode).isSome then .sectionMatch else .wholeDocument := by
  rcases of_not_sharesName insertNew h with ⟨s, hs, htier, -⟩ | ⟨hnone, htier, -⟩
  · simp [hs, htier]
  · simp [hnone, htier]

theorem not_sharesName_of_tier (h : (Plan.of text newCode insertNew).tier ≠ .nameMatch) :
    ¬(Index.of text).SharesName (Index.of newCode) :=
  mt (of_tier_iff text newCode insertNew).mpr h

theorem exists_edit_of_tier (h : (Plan.of text newCode insertNew).tier ≠ .nameMatch) :
    ∃ e, (Plan.of text newCode insertNew).edits = [e] ∧ e.replacement = newCode := by
  rcases of_not_sharesName insertNew (not_sharesName_of_tier h) with
    ⟨s, -, -, hedits⟩ | ⟨-, -, hedits⟩
  · exact ⟨_, hedits, rfl⟩
  · exact ⟨_, hedits, rfl⟩

theorem apply_eq_self_iff_of_singleton {e : Edit}
    (h : (Plan.of text newCode insertNew).edits = [e]) :
    (Plan.of text newCode insertNew).apply text = .ok text ↔ e.Restores text := by
  have happlicable := of_applicable text newCode insertNew
  rw [h] at happlicable
  rw [apply, h]
  exact Edit.apply_singleton_eq_self_iff happlicable

/-- A text without callables that is patched with itself stays as it is unless its declarations lead
to a section that is not all of it. -/
theorem of_self_iff_of_nil (insertNew : Bool) (h : (Index.of text).spans = []) :
    (Plan.of text text insertNew).apply text = .ok text ↔
      ∀ sec ∈ sectionFor? text text, sec.start = 0 ∧ sec.stop = text.length := by
  have hshares : ¬(Index.of text).SharesName (Index.of text) := by
    rintro ⟨s, hs, -⟩
    rw [h] at hs
    cases hs
  constructor
  · intro hself sec hsec
    rcases of_not_sharesName insertNew hshares with ⟨sec', hsec', -, hedits⟩ | ⟨hnone, -, -⟩
    · obtain rfl : sec' = sec := Option.some.inj (hsec'.symm.trans hsec)
      have hbounds := sectionFor?_bounds hsec'
      have hrestores : text = Text.slice text sec'.start sec'.stop :=
        (apply_eq_self_iff_of_singleton hedits).mp hself
      have hlength := congrArg List.length hrestores
      rw [Text.slice_length] at hlength
      omega
    · rw [hnone] at hsec
      cases hsec
  · exact apply_eq_newCode insertNew hshares

theorem eq_newCode_of_wholeDocument
    (htier : (Plan.of existing newCode insertNew).tier = .wholeDocument)
    (h : (Plan.of existing newCode insertNew).apply existing = .ok r) : r = newCode := by
  have hshares := not_sharesName_of_tier (htier.trans_ne (by simp))
  have hnone : sectionFor? existing newCode = none := by
    rw [tier_of_not_sharesName insertNew hshares] at htier
    simpa using htier
  have hnew := apply_eq_newCode insertNew hshares (by simp [hnone])
  exact Except.ok.inj (h.symm.trans hnew)

theorem edits_of_sectionMatch {sec : Sectioned}
    (htier : (Plan.of text newCode insertNew).tier = .sectionMatch)
    (hsec : sectionFor? text newCode = some sec) :
    (Plan.of text newCode insertNew).edits = [⟨sec.start, sec.stop, newCode⟩] := by
  have hshares := not_sharesName_of_tier (htier.trans_ne (by simp))
  rcases of_not_sharesName insertNew hshares with ⟨sec', hsec', -, hedits⟩ | ⟨hnone, -, -⟩
  · obtain rfl : sec' = sec := Option.some.inj (hsec'.symm.trans hsec)
    exact hedits
  · rw [hnone] at hsec
    cases hsec

theorem eq_patched_of_sectionMatch {sec : Sectioned}
    (htier : (Plan.of existing newCode insertNew).tier = .sectionMatch)
    (hsec : sectionFor? existing newCode = some sec)
    (h : (Plan.of existing newCode insertNew).apply existing = .ok r) :
    r = sec.patched newCode := by
  obtain ⟨hlines, hbody⟩ := sectionFor?_lines hsec
  have happlicable := of_applicable existing newCode insertNew
  rw [edits_of_sectionMatch htier hsec] at happlicable
  rw [apply, edits_of_sectionMatch htier hsec, Edit.apply_singleton happlicable] at h
  rw [Sectioned.patched_eq hlines hbody]
  exact (Except.ok.inj h).symm

/-- Code that took the place of a section stays the second time, unless its names are found, exactly
if its own declarations lead to all of it, and its section ends before the lines below. -/
theorem apply_patched_iff {sec own : Sectioned}
    (hsec : sectionFor? existing newCode = some sec)
    (hown : sectionFor? (newCode ++ sec.returns) newCode = some own)
    (hagain : (Plan.of (sec.patched newCode) newCode insertNew).tier ≠ .nameMatch) :
    (Plan.of (sec.patched newCode) newCode insertNew).apply (sec.patched newCode) =
        .ok (sec.patched newCode) ↔
      own.start = 0 ∧ own.stop = newCode.length ∧ own.EndsBefore sec.below := by
  obtain ⟨again, hfound⟩ := exists_section_of_patched hsec hown
  have htier : (Plan.of (sec.patched newCode) newCode insertNew).tier = .sectionMatch := by
    rw [tier_of_not_sharesName insertNew (not_sharesName_of_tier hagain), hfound]
    rfl
  obtain ⟨hlines, hbody⟩ := sectionFor?_lines hfound
  rw [apply_eq_self_iff_of_singleton (edits_of_sectionMatch htier hfound),
    ← text_eq_iff_of_patched hsec hown hfound, ← Sectioned.slice_eq_text hlines hbody]
  exact eq_comm

/-- New code for a text without callables of its names is one edit. When it has taken the place of a
whole text, the second time it stays as it is exactly if it holds callables or if no section smaller
than all of it is found by its declarations. When it has taken the place of a section, and its names
are not found there, it stays exactly if its declarations lead to all of it and no further. -/
theorem of_reapplied (h : (Plan.of existing newCode insertNew).apply existing = .ok r) :
    let first := Plan.of existing newCode insertNew
    let again := Plan.of r newCode insertNew
    (first.tier = .wholeDocument → r = newCode ∧ (again.apply r = .ok r ↔
      (Index.of newCode).spans ≠ [] ∨
        ∀ sec ∈ sectionFor? newCode newCode, sec.start = 0 ∧ sec.stop = newCode.length)) ∧
    (first.tier = .sectionMatch → again.tier ≠ .nameMatch →
      ∃ sec, sectionFor? existing newCode = some sec ∧
        ∀ own ∈ sectionFor? (newCode ++ sec.returns) newCode,
          (again.apply r = .ok r ↔
            own.start = 0 ∧ own.stop = newCode.length ∧ own.EndsBefore sec.below)) ∧
    (again.tier ≠ .nameMatch → ∃ e, again.edits = [e] ∧ e.replacement = newCode) ∧
    (∀ e, again.edits = [e] → (again.apply r = .ok r ↔ e.Restores r)) ∧
    ((∀ e ∈ again.edits, e.Restores r) → again.apply r = .ok r) := by
  intro first again
  refine ⟨fun htier => ?_, fun htier hnames => ?_, exists_edit_of_tier,
    fun e => apply_eq_self_iff_of_singleton, apply_eq_self⟩
  · obtain rfl := eq_newCode_of_wholeDocument htier h
    refine ⟨rfl, ?_⟩
    by_cases hnil : (Index.of r).spans = []
    · rw [of_self_iff_of_nil insertNew hnil]
      simp [hnil]
    · simp [hnil, again, apply_eq_self (restores_of_self insertNew hnil)]
  · have hshares := not_sharesName_of_tier (htier.trans_ne (by simp))
    obtain ⟨sec, hsec, -, -⟩ | ⟨-, hwhole, -⟩ := of_not_sharesName insertNew hshares
    · obtain rfl := eq_patched_of_sectionMatch htier hsec h
      exact ⟨sec, hsec, fun own hown => apply_patched_iff hsec hown hnames⟩
    · rw [hwhole] at htier
      cases htier

/-- Plain text replaces plain text, and a class that ends with its brace replaces an empty one. Both
do so again. -/
theorem of_reapplied_of_text_and_class :
    (let existing : Text := "old text\n"
      let newCode : Text := "just text\n"
      (Plan.of existing newCode false).tier = .wholeDocument ∧
        (Plan.of existing newCode false).apply existing = .ok newCode ∧
        (Plan.of newCode newCode false).apply newCode = .ok newCode) ∧
    (let existing : Text := "one\n\nclass A \x7b\n\x7d\ntwo"
      let newCode : Text := "class A \x7b\n  x\n\x7d"
      let r : Text := "one\n\nclass A \x7b\n  x\n\x7d\ntwo"
      (Plan.of existing newCode false).tier = .sectionMatch ∧
        (Plan.of existing newCode false).apply existing = .ok r ∧
        (Plan.of r newCode false).apply r = .ok r) := by
  refine ⟨?_, ?_⟩
  · intro existing newCode
    have hshares : ¬(Index.of existing).SharesName (Index.of newCode) := by
      have hnil : (Index.of newCode).spans = [] := by decide +kernel
      simp [Index.SharesName, hnil]
    have hsection : sectionFor? existing newCode = none := by decide +kernel
    have htier : (Plan.of existing newCode false).tier = .wholeDocument := by
      rw [tier_of_not_sharesName false hshares, hsection]
      rfl
    have happly : (Plan.of existing newCode false).apply existing = .ok newCode :=
      apply_eq_newCode false hshares (by simp [hsection])
    obtain ⟨hwhole, -⟩ := of_reapplied happly
    exact ⟨htier, happly, (hwhole htier).2.mpr (.inr (by decide +kernel))⟩
  · intro existing newCode r
    have hnone (text : Text) : ¬(Index.of text).SharesName (Index.of newCode) := by
      have hnil : (Index.of newCode).spans = [] := by decide +kernel
      simp [Index.SharesName, hnil]
    have htier : (Plan.of existing newCode false).tier = .sectionMatch := by
      rw [tier_of_not_sharesName false (hnone existing)]
      decide +kernel
    obtain ⟨-, -, -, -, result, hresult⟩ := of_can_be_applied existing newCode false
    obtain ⟨-, hsection, -⟩ := of_reapplied hresult
    obtain ⟨sec, hsec, hagain⟩ := hsection htier (mt (of_tier_iff _ _ _).mp (hnone result))
    obtain ⟨own, hown⟩ : ∃ own, sectionFor? newCode newCode = some own :=
      Option.isSome_iff_exists.mp (by decide +kernel)
    have hsecs : ∀ s ∈ sectionFor? existing newCode, s.patched newCode = r ∧ s.returns = [] := by
      decide +kernel
    have howns : ∀ s ∈ sectionFor? newCode newCode, s.start = 0 ∧ s.stop = newCode.length ∧
        s.lead + 1 < s.body.length ∧ 0 < braceDepth s.body.dropLast ∧
        s.body.getLast? = some "\x7d".toList := by
      decide +kernel
    obtain ⟨hpatched, hreturns⟩ := hsecs sec hsec
    obtain ⟨hstart, hstop, hlead, hdepth, hlast⟩ := howns own hown
    obtain rfl : result = r := (eq_patched_of_sectionMatch htier hsec hresult).trans hpatched
    rw [hreturns, List.append_nil] at hagain
    exact ⟨htier, hresult, (hagain own hown).mpr ⟨hstart, hstop,
      .inl ⟨hlead, hdepth, _, hlast, by decide +kernel⟩⟩⟩

theorem edits_of_one_replaced {p : Span × Span}
    (h : (NameMatch.of false (Index.of text) (Index.of newCode)).replaced = [p]) :
    (Plan.of text newCode false).edits = [NameMatch.replacement text newCode p] := by
  have hshares : (Index.of text).SharesName (Index.of newCode) := by
    by_contra hnone
    rw [NameMatch.replaced_eq_nil_iff.mpr hnone] at h
    cases h
  have hfirst : (NameMatch.of false (Index.of text) (Index.of newCode)).first? = some p.2 := by
    rw [NameMatch.first?_eq, h]
    rfl
  rw [(of_sharesName hshares).2, NameMatch.edits_eq_sorted hfirst, NameMatch.placed, h,
    NameMatch.added_eq_nil, List.map_nil, List.append_nil, List.map_singleton, Edit.sorted,
    List.mergeSort_singleton]

/-- New code without callables that takes the place of all of a text, and of a section of itself
the second time. -/
theorem not_reapplied_of_nil (existing newCode : Text) (insertNew : Bool)
    (hnil : (Index.of newCode).spans = [])
    (hall : ∀ sec ∈ sectionFor? existing newCode, sec.start = 0 ∧ sec.stop = existing.length)
    (hpart : ¬ ∀ sec ∈ sectionFor? newCode newCode, sec.start = 0 ∧ sec.stop = newCode.length) :
    (Plan.of existing newCode insertNew).tier =
        (if (sectionFor? existing newCode).isSome then .sectionMatch else .wholeDocument) ∧
      (Plan.of existing newCode insertNew).apply existing = .ok newCode ∧
      (Plan.of newCode newCode insertNew).apply newCode ≠ .ok newCode := by
  have hshares : ¬(Index.of existing).SharesName (Index.of newCode) := by
    simp [Index.SharesName, hnil]
  exact ⟨tier_of_not_sharesName insertNew hshares, apply_eq_newCode insertNew hshares hall,
    mt (of_self_iff_of_nil insertNew hnil).mp hpart⟩

/-- New code can be put in once more whatever the first plan was: it replaced all of the text, or a
section that was all of it, or a callable, in which another name of the new code then stands. -/
theorem of_reapplied_moves :
    (¬ ∀ (existing newCode r : Text) (insertNew : Bool),
      (Plan.of existing newCode insertNew).tier = .wholeDocument →
      (Plan.of existing newCode insertNew).apply existing = .ok r →
        (Plan.of r newCode insertNew).apply r = .ok r) ∧
    (¬ ∀ (existing newCode r : Text) (insertNew : Bool),
      (Plan.of existing newCode insertNew).tier = .sectionMatch →
      (Plan.of existing newCode insertNew).apply existing = .ok r →
        (Plan.of r newCode insertNew).apply r = .ok r) ∧
    ¬ ∀ (existing newCode r : Text) (insertNew : Bool),
      (Plan.of existing newCode insertNew).tier = .nameMatch →
      (Plan.of existing newCode insertNew).apply existing = .ok r →
        (Plan.of r newCode insertNew).apply r = .ok r := by
  refine ⟨?_, ?_, ?_⟩
  · intro hsame
    obtain ⟨htier, happly, hother⟩ :=
      not_reapplied_of_nil "x" "def A:\n\n  b" false
        (by decide +kernel) (by decide +kernel) (by decide +kernel)
    exact hother (hsame _ _ _ _ (htier.trans (by decide +kernel)) happly)
  · intro hsame
    obtain ⟨htier, happly, hother⟩ :=
      not_reapplied_of_nil "class A \x7b\n\x7d" "class A \x7b\n  x\n\n  y\n\x7d" false
        (by decide +kernel) (by decide +kernel) (by decide +kernel)
    exact hother (hsame _ _ _ _ (htier.trans (by decide +kernel)) happly)
  · intro hsame
    let newCode : Text := "function g(){}\nfunction f(){ const g = () => {1} }"
    let r : Text := "function f(){ const g = () => {1} }"
    have hold : (Index.of "function f(){}").spans = [⟨"f", "function f(){}", 0⟩] := by
      decide +kernel
    have hnew : (Index.of newCode).spans =
        [⟨"g", "function g(){}", 0⟩, ⟨"f", r, 15⟩] := by decide +kernel
    have hr : (Index.of r).spans = [⟨"f", r, 0⟩, ⟨"g", "const g = () => {1}", 14⟩] := by
      decide +kernel
    obtain ⟨htier, hof⟩ := of_known_spans false hold hnew (by decide +kernel) (by decide +kernel)
    obtain ⟨-, hof'⟩ := of_known_spans false hr hnew (by decide +kernel) (by decide +kernel)
    have hfirst := edits_of_one_replaced (p := (⟨"f", r, 15⟩, ⟨"f", "function f(){}", 0⟩))
      (by rw [hof]; decide +kernel)
    have hagain := edits_of_one_replaced
      (p := (⟨"g", "function g(){}", 0⟩, ⟨"g", "const g = () => {1}", 14⟩))
      (by rw [hof']; decide +kernel)
    have happlicable := of_applicable "function f(){}" newCode false
    rw [hfirst] at happlicable
    have happly : (Plan.of "function f(){}" newCode false).apply "function f(){}" = .ok r := by
      rw [apply, hfirst, Edit.apply_singleton happlicable]
      decide +kernel
    have hrestores := (apply_eq_self_iff_of_singleton hagain).mp (hsame _ _ _ _ htier happly)
    revert hrestores
    rw [Edit.Restores]
    decide +kernel

end Plan

end CodeGraft
