import CodeGraft.Proofs.Encoding
import CodeGraft.Proofs.OnMachine
import CodeGraft.Proofs.Places
import CodeGraft.Proofs.Unrelated

/-!
# What an update does to line endings

A file is read with line feeds only, and what was read is written back around the replaced stretches.
So a partial update keeps the bytes of the file outside of these stretches exactly if there is no
carriage return among them.
-/

namespace CodeGraft

open Text Dialogue

/-! ### Cutting a text along with what is read of it -/

namespace Text

theorem not_mem_unifyNewlines (text : Text) : '\r' ∉ unifyNewlines text := by
  fun_induction unifyNewlines text with
  | case1 => simp
  | case2 text ih => simpa using ih
  | case3 c text _ ih =>
    by_cases hc : c = '\r'
    · simpa [hc] using ih
    · simpa [hc, Ne.symm hc] using ih

theorem unifyNewlines_eq_self_iff {text : Text} : unifyNewlines text = text ↔ '\r' ∉ text := by
  constructor
  · intro h
    rw [← h]
    exact not_mem_unifyNewlines text
  · exact unifyNewlines_of_not_mem

theorem unifyNewlines_eq_nil_iff {text : Text} : unifyNewlines text = [] ↔ text = [] := by
  fun_cases unifyNewlines text <;> simp

/-- Only a carriage return in front of a line feed is not read by itself. -/
theorem unifyNewlines_cons {c : Char} {text : Text} (h : c = '\r' → text.head? ≠ some '\n') :
    unifyNewlines (c :: text) = (if c = '\r' then '\n' else c) :: unifyNewlines text := by
  rw [unifyNewlines]
  rintro more rfl rfl
  exact h rfl rfl

theorem exists_append_of_unifyNewlines {text a b : Text} (h : unifyNewlines text = a ++ b) :
    ∃ a' b', text = a' ++ b' ∧ unifyNewlines a' = a ∧ unifyNewlines b' = b := by
  fun_induction unifyNewlines text generalizing a with
  | case1 =>
    obtain ⟨rfl, rfl⟩ := List.append_eq_nil_iff.mp h.symm
    exact ⟨[], [], rfl, rfl, rfl⟩
  | case2 text ih =>
    cases a with
    | nil => exact ⟨[], '\r' :: '\n' :: text, rfl, rfl, h⟩
    | cons x a =>
      simp only [List.cons_append, List.cons.injEq] at h
      obtain ⟨rfl, hrest⟩ := h
      obtain ⟨a', b', rfl, rfl, rfl⟩ := ih hrest
      exact ⟨'\r' :: '\n' :: a', b', rfl, rfl, rfl⟩
  | case3 c text hpair ih =>
    cases a with
    | nil =>
      refine ⟨[], c :: text, rfl, rfl, ?_⟩
      rw [unifyNewlines_cons, ← List.nil_append b, ← h]
      rintro rfl hhead
      cases text with
      | nil => cases hhead
      | cons d text =>
        obtain rfl : d = '\n' := by simpa using hhead
        exact hpair text rfl rfl
    | cons x a =>
      simp only [List.cons_append, List.cons.injEq] at h
      obtain ⟨rfl, hrest⟩ := h
      obtain ⟨a', b', rfl, rfl, rfl⟩ := ih hrest
      refine ⟨c :: a', b', rfl, ?_, rfl⟩
      rw [unifyNewlines_cons]
      rintro rfl hhead
      cases a' with
      | nil => cases hhead
      | cons d a' =>
        obtain rfl : d = '\n' := by simpa using hhead
        exact hpair (a' ++ b') rfl rfl

end Text

namespace Edit

theorem length_gaps (text : Text) (reached : Nat) (edits : List Edit) :
    (gaps text reached edits).length = edits.length + 1 := by
  induction edits generalizing reached with
  | nil => rfl
  | cons e edits ih => rw [gaps, List.length_cons, ih, List.length_cons]

theorem exists_weave_of_unifyNewlines {gaps pieces : List Text} (hlen : pieces.length ≤ gaps.length)
    {text : Text} (h : unifyNewlines text = weave gaps pieces) :
    ∃ gaps' pieces', text = weave gaps' pieces' ∧ gaps'.map unifyNewlines = gaps ∧
      pieces'.map unifyNewlines = pieces := by
  induction gaps generalizing pieces text with
  | nil =>
    obtain rfl := List.eq_nil_of_length_eq_zero (Nat.le_zero.mp hlen)
    obtain rfl := unifyNewlines_eq_nil_iff.mp h
    exact ⟨[], [], rfl, rfl, rfl⟩
  | cons gap gaps ih =>
    cases pieces with
    | nil =>
      rw [weave] at h
      obtain ⟨gap', rest, rfl, rfl, hrest⟩ := exists_append_of_unifyNewlines h
      obtain ⟨gaps', pieces', rfl, rfl, hpieces⟩ := ih (Nat.zero_le _) hrest
      obtain rfl := List.map_eq_nil_iff.mp hpieces
      exact ⟨gap' :: gaps', [], rfl, rfl, rfl⟩
    | cons piece pieces =>
      rw [weave, List.append_assoc] at h
      obtain ⟨gap', rest, rfl, rfl, hrest⟩ := exists_append_of_unifyNewlines h
      obtain ⟨piece', rest, rfl, rfl, hbehind⟩ := exists_append_of_unifyNewlines hrest
      obtain ⟨gaps', pieces', rfl, rfl, rfl⟩ := ih (Nat.le_of_succ_le_succ hlen) hbehind
      exact ⟨gap' :: gaps', piece' :: pieces', by rw [weave, List.append_assoc], rfl, rfl⟩

theorem count_weave (c : Char) (gaps pieces : List Text) :
    (weave gaps pieces).count c =
      gaps.flatten.count c + (pieces.take gaps.length).flatten.count c := by
  induction gaps generalizing pieces with
  | nil => simp [weave]
  | cons gap gaps ih =>
    cases pieces with
    | nil => simp [weave, ih]
    | cons piece pieces =>
      simp only [weave, List.count_append, ih, List.flatten_cons, List.length_cons,
        List.take_succ_cons]
      omega

/-- Gaps may be read for the gaps exactly if there is no carriage return in them. -/
theorem weave_unifyNewlines_eq_iff {gaps pieces : List Text} :
    weave (gaps.map unifyNewlines) pieces = weave gaps pieces ↔ ∀ gap ∈ gaps, '\r' ∉ gap := by
  constructor
  · intro h gap hgap hmem
    have hcount := congrArg (List.count '\r') h
    have hzero : (gaps.map unifyNewlines).flatten.count '\r' = 0 := by
      rw [List.count_eq_zero]
      simp only [List.mem_flatten, List.mem_map]
      rintro ⟨_, ⟨t, -, rfl⟩, hmem⟩
      exact not_mem_unifyNewlines t hmem
    rw [count_weave, count_weave, hzero, List.length_map] at hcount
    have hnone : gaps.flatten.count '\r' = 0 := by omega
    exact List.count_eq_zero.mp hnone (List.mem_flatten.mpr ⟨gap, hgap, hmem⟩)
  · intro h
    have hmap : gaps.map unifyNewlines = gaps := by
      conv => rhs; rw [← List.map_id gaps]
      exact List.map_congr_left fun gap hgap => unifyNewlines_eq_self_iff.mpr (h gap hgap)
    rw [hmap]

end Edit

/-- Stretches of a text, those outside of edits and those that they replace. The edits are of what is
read of the text. -/
structure Stretches (text : Text) (edits : List Edit) (outside replaced : List Text) : Prop where
  eq_weave : text = Edit.weave outside replaced
  gaps_eq : outside.map unifyNewlines = Edit.gaps (unifyNewlines text) 0 edits
  targets_eq : replaced.map unifyNewlines = edits.map (Edit.target (unifyNewlines text))

theorem exists_stretches {text : Text} {edits : List Edit}
    (h : Edit.Applicable (unifyNewlines text) edits) :
    ∃ outside replaced, Stretches text (Edit.sorted edits) outside replaced := by
  have hlen : ((Edit.sorted edits).map (Edit.target (unifyNewlines text))).length ≤
      (Edit.gaps (unifyNewlines text) 0 (Edit.sorted edits)).length := by
    rw [List.length_map, Edit.length_gaps]
    omega
  obtain ⟨outside, replaced, heq, hgaps, htargets⟩ :=
    Edit.exists_weave_of_unifyNewlines hlen (Edit.eq_weave_targets h)
  exact ⟨outside, replaced, heq, hgaps, htargets⟩

theorem textOf_of_decode {bytes : Bytes} {text : Text} (h : Utf8.decode bytes = .ok text) :
    Machine.textOf bytes = .ok (unifyNewlines text) := by
  rw [Machine.textOf, h]

/-- A block that is a part of a file updates the file. Outside of the stretches that its edits
replace, the file holds then what was read of it; these are the bytes that stood there exactly if
they hold no carriage return. -/
theorem applyBlock_keeps_outside_iff {w : LocalWorkspace} {settings : Settings}
    {company : Company} {block : Block} {stores : Stores} {world world' : World}
    {result : BlockResult} {exchanges : List (Exchange Answer)} {path : Text} {bytes : Bytes}
    {text : Text}
    (hrun : run World.host (w.hold stores (applyBlock settings company block)) world =
      (result, world', exchanges))
    (hstatus : result.status = .updated) (hdry : settings.dryRun = false)
    (hpart : extentOf block.code = .part) (hpath : w.absolutePath result.path = .ok path)
    (hread : world.disk.read path = .ok bytes) (hdecode : Utf8.decode bytes = .ok text) :
    let edits := Edit.sorted (Plan.of (unifyNewlines text) block.code settings.insertNew).edits
    (∃ outside replaced, Stretches text edits outside replaced) ∧
      ∀ outside replaced, Stretches text edits outside replaced →
        bytes = Utf8.encode (Edit.weave outside replaced) ∧
        world'.disk.read path = .ok (Utf8.encode
          (Edit.weave (outside.map unifyNewlines) (edits.map (·.replacement)))) ∧
        (world'.disk.read path =
            .ok (Utf8.encode (Edit.weave outside (edits.map (·.replacement)))) ↔
          ∀ stretch ∈ outside, '\r' ∉ stretch) := by
  intro edits
  have happlicable := Plan.of_applicable (unifyNewlines text) block.code settings.insertNew
  have hgoes := goes_steps_iff.mpr ⟨congrArg Prod.fst hrun, congrArg (·.2.1) hrun,
    throughout_always World.host _ world⟩
  obtain ⟨stores', hsession⟩ := LocalWorkspace.goes_hold_iff.mp hgoes
  obtain ⟨xs, hplays, hfollows⟩ := goes_iff_plays.mp hsession
  obtain ⟨path', bytes', existing, revision, keeping, hupdates⟩ :=
    LocalWorkspace.exists_updates (course_of_applyBlock hplays) hfollows hstatus hdry
  obtain rfl := Except.ok.inj (hupdates.path_eq.symm.trans hpath)
  obtain rfl := Except.ok.inj (hupdates.read.symm.trans hread)
  obtain rfl := Except.ok.inj (hupdates.text.symm.trans (textOf_of_decode hdecode))
  obtain ⟨asked, kept, now, -, -, -, -, hwrite⟩ := hupdates.goes
  have hwritten := Disk.read_of_write hwrite
  obtain ⟨_, hrevise, happly⟩ := exists_revision_of_part settings (unifyNewlines text) hpart
  obtain rfl := Except.ok.inj (hupdates.revise.symm.trans hrevise)
  refine ⟨exists_stretches happlicable, fun outside replaced hcut => ?_⟩
  have hcontent : revision.content =
      Edit.weave (outside.map unifyNewlines) (edits.map (·.replacement)) := by
    rw [hcut.gaps_eq]
    exact Except.ok.inj (happly.symm.trans (Edit.apply_eq_weave happlicable))
  rw [hcontent] at hwritten
  refine ⟨?_, hwritten, ?_⟩
  · rw [← hcut.eq_weave, Utf8.encode_of_decode hdecode]
  · have hkeeps : Edit.weave (outside.map unifyNewlines) (edits.map (·.replacement)) =
        Edit.weave outside (edits.map (·.replacement)) ↔ _ := Edit.weave_unifyNewlines_eq_iff
    rw [hwritten, ← hkeeps]
    constructor
    · intro h
      exact Utf8.encode_injective (Except.ok.inj h)
    · intro h
      rw [h]

def newCode : Block := ⟨"a.js", [], "function f(){1}"⟩

def oneFile (text : Text) : World where
  disk :=
    { nodes := [(["ws"], .folder),
        (["ws", "a.js"], .file (Utf8.encode text) ⟨2024, 1, 2, 3, 4, 5, 6⟩)] }
  now := ⟨2024, 1, 2, 3, 4, 5, 6⟩

def updateOneFile (text : Text) : BlockResult × World × List (Exchange Answer) :=
  run World.host
    (LocalWorkspace.hold ⟨"/ws", false⟩ ⟨⟨"/b", some 1, none⟩, ⟨"/b/history.json", 1, none⟩⟩
      (applyBlock {} {} newCode)) (oneFile text)

/-- A file with line feeds only keeps the function that is not replaced, and the line feed. -/
theorem applyBlock_keeps_outside_of_lineFeeds :
    let text : Text := "function f(){}\nfunction g(){}"
    let edits := Edit.sorted (Plan.of (unifyNewlines text) newCode.code false).edits
    let after := (updateOneFile text).2.1.disk.read "/ws/a.js".toList
    (updateOneFile text).1.status = .updated ∧
      (∃ outside replaced, Stretches text edits outside replaced ∧
        (after = .ok (Utf8.encode (Edit.weave outside (edits.map (·.replacement)))) ↔
          ∀ stretch ∈ outside, '\r' ∉ stretch)) ∧
      after = .ok (Utf8.encode "function f(){1}\nfunction g(){}") := by
  intro text edits after
  obtain ⟨hstatus, hname, hafter⟩ : (updateOneFile text).1.status = .updated ∧
      (updateOneFile text).1.path = "a.js".toList ∧
      after = .ok (Utf8.encode "function f(){1}\nfunction g(){}") := by decide +kernel
  have hpart : extentOf newCode.code = .part := by decide +kernel
  have hread : (oneFile text).disk.read "/ws/a.js".toList = .ok (Utf8.encode text) := by
    decide +kernel
  have hpath : (⟨"/ws", false⟩ : LocalWorkspace).absolutePath (updateOneFile text).1.path =
      .ok "/ws/a.js".toList := by
    rw [hname]
    rfl
  rcases hrun : updateOneFile text with ⟨result, world', exchanges⟩
  have hworld : after = world'.disk.read "/ws/a.js".toList := by
    change (updateOneFile text).2.1.disk.read "/ws/a.js".toList = _
    rw [hrun]
  rw [hrun] at hstatus hpath
  obtain ⟨⟨outside, replaced, hcut⟩, hkeeps⟩ :=
    applyBlock_keeps_outside_iff hrun hstatus rfl hpart hpath hread (Utf8.decode_encode text)
  refine ⟨hstatus, ⟨outside, replaced, hcut, ?_⟩, hafter⟩
  rw [hworld]
  exact (hkeeps outside replaced hcut).2.2

/-- A carriage return in front of a function that is not replaced is lost. -/
theorem applyBlock_loses_return :
    let text : Text := "function f(){}\r\nfunction g(){}"
    let plan := Plan.of (unifyNewlines text) newCode.code false
    (updateOneFile text).1.status = .updated ∧ plan.tier = .nameMatch ∧
      plan.edits = [⟨0, 14, "function f(){1}"⟩] ∧
      (oneFile text).disk.read "/ws/a.js".toList = .ok (Utf8.encode text) ∧
      (updateOneFile text).2.1.disk.read "/ws/a.js".toList =
        .ok (Utf8.encode "function f(){1}\nfunction g(){}") := by
  decide +kernel

end CodeGraft
