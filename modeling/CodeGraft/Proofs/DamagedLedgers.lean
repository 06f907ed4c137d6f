import CodeGraft.Proofs.Ledgers

/-!
# Damaged ledgers

Someone else may have written the file of a ledger, and any bytes can stand in it. Bytes that are no
text, a text that is no value, and a value that is no list hold no items; items that are no objects
are passed over. A value that is nested deeper than the machine can go is not passed over. What is
left are objects, of which only the references to backups are looked at, and these can be values of
any kind.
-/

namespace CodeGraft

open Text Dialogue Disk

/-- Whether a value can be a reference to a backup, or is found to be none: all texts, all that is
empty, and the numbers of files that are not open. -/
def Json.Value.isTolerable : Json.Value → Bool
  | .text _ => true
  | .number (.integer n) => n = 0 || -2147483648 ≤ n && n < 0 || 3 ≤ n && n < 2147483648
  | value => !value.isFilled

namespace Ledger

def IsBacked (d : Disk) (e : HistoryEntry) : Prop :=
  ∃ path, e.backupRef = .text path ∧ d.holds path = true

variable {test : Call → World → Bool} {w w' : World} {l l' : Ledger}

/-- What is found when a reference that is not empty is looked at. -/
inductive Finds (d : Disk) : Json.Value → Except Fault Bool → Prop
  | path (path : Text) : Finds d (.text path) (.ok (d.holds path))
  | nothing {ref : Json.Value} (h : ref.isTolerable = true) : Finds d ref (.ok false)
  | openFile {ref : Json.Value} (h : ref.isTolerable = false) (hpath : ∀ path, ref ≠ .text path) :
      Finds d ref (.ok true)
  | misuse {ref : Json.Value} (misuse : PathMisuse) (h : ref.isTolerable = false) :
      Finds d ref (.error (.notPath misuse))

theorem finds_of_goes_backupStands {ref : Json.Value} {r : Except Fault Bool}
    (hfilled : ref.isFilled = true)
    (h : (backupStands ref).run.Goes (World.turns test) w r w') :
    w' = w ∧ Finds w.disk ref r := by
  have hmisuse : ∀ {misuse : PathMisuse}, ref.isTolerable = false →
      (throw (.notPath misuse) : Errand Bool).run.Goes (World.turns test) w r w' →
      w' = w ∧ Finds w.disk ref r := by
    intro misuse hintolerable h
    obtain ⟨rfl, rfl⟩ := goes_throw_run_iff.mp h
    exact ⟨rfl, .misuse misuse hintolerable⟩
  cases ref with
  | text path =>
    obtain ⟨stands, hholds, rfl⟩ := goes_lift_run_iff.mp h
    obtain ⟨rfl, rfl⟩ : w.disk.holds path = stands ∧ w = w' := by
      simpa [World.host] using ((goes_call_iff rfl).mp hholds).2
    exact ⟨rfl, .path path⟩
  | bool b =>
    obtain ⟨rfl, rfl⟩ := goes_pure_run_iff.mp h
    exact ⟨rfl, .openFile (by simpa [Json.Value.isTolerable] using hfilled) (by simp)⟩
  | number n =>
    cases n with
    | integer n =>
      have hn : n ≠ 0 := by simpa [Json.Value.isFilled, Json.Number.isZero] using hfilled
      rw [backupStands] at h
      split at h
      next => exact hmisuse (by simp [Json.Value.isTolerable]; omega) h
      split at h
      next => exact hmisuse (by simp [Json.Value.isTolerable]; omega) h
      obtain ⟨rfl, rfl⟩ := goes_pure_run_iff.mp h
      refine ⟨rfl, ?_⟩
      by_cases hopen : 0 ≤ n ∧ n < 3
      · rw [decide_eq_true hopen.1, decide_eq_true hopen.2]
        exact .openFile (by simp [Json.Value.isTolerable]; omega) (by simp)
      · have hfalse : (decide (0 ≤ n) && decide (n < 3)) = false := by simpa using hopen
        rw [hfalse]
        exact .nothing (by simp [Json.Value.isTolerable]; omega)
    | _ => exact hmisuse (by simp [Json.Value.isTolerable, hfilled]) h
  | _ => exact hmisuse (by simp [Json.Value.isTolerable, hfilled]) h

theorem isTolerable_of_not_isFilled {ref : Json.Value} (h : ref.isFilled = false) :
    ref.isTolerable = true := by
  rcases ref with _ | b | (n | d | _ | _) | t | items | fields <;>
    simp_all [Json.Value.isTolerable, Json.Value.isFilled, Json.Number.isZero]

theorem finds_of_goes_asked {ref : Json.Value} {r : Except Fault Bool}
    (h : (if ref.isFilled then backupStands ref else pure false : Errand Bool).run.Goes
      (World.turns test) w r w') : w' = w ∧ Finds w.disk ref r := by
  split at h
  next hfilled => exact finds_of_goes_backupStands hfilled h
  next hempty =>
    obtain ⟨rfl, rfl⟩ := goes_pure_run_iff.mp h
    exact ⟨rfl, .nothing (isTolerable_of_not_isFilled (Bool.eq_false_iff.mpr hempty))⟩

theorem Finds.eq_false_of_error {d : Disk} {ref : Json.Value} {e : Fault}
    (h : Finds d ref (.error e)) : ref.isTolerable = false := by
  cases h with
  | misuse _ hintolerable => exact hintolerable

/-- An entry that is kept is backed, unless its reference should not have been looked at. -/
theorem Finds.isBacked_iff {d : Disk} {e : HistoryEntry} {stands : Bool}
    (h : Finds d e.backupRef (.ok stands)) :
    (stands = true → IsBacked d e) ↔ e.backupRef.isTolerable = true := by
  unfold IsBacked
  generalize e.backupRef = ref at h
  cases h with
  | path path => exact ⟨fun _ => rfl, fun _ hstands => ⟨path, rfl, hstands⟩⟩
  | nothing htolerable => simp [htolerable]
  | openFile hintolerable hpath => simp [hintolerable, hpath]

/-- All entries among the items of a ledger can be read and are backed if, and only if, their
references can be looked at. -/
theorem standing_tolerates_iff {items : List Json.Value} {r : Except Fault (List HistoryEntry)}
    (h : (standing items).run.Goes (World.turns test) w r w') :
    w' = w ∧ ((∃ es, r = .ok es ∧ ∀ e ∈ es, IsBacked w.disk e) ↔
      ∀ fields, .object fields ∈ items →
        (HistoryEntry.ofValue (.object fields)).backupRef.isTolerable = true) := by
  induction items generalizing r w' with
  | nil =>
    obtain ⟨rfl, rfl⟩ := goes_pure_run_iff.mp h
    exact ⟨rfl, by simp⟩
  | cons item items ih =>
    cases item with
    | object fields =>
      rw [standing] at h
      dsimp only at h
      rw [ite_bind] at h
      have hobjects : ∀ {P : List (Text × Json.Value) → Prop},
          (∀ others, .object others ∈ Json.Value.object fields :: items → P others) ↔
            P fields ∧ ∀ others, .object others ∈ items → P others := by simp [or_imp, forall_and]
      rw [hobjects]
      generalize HistoryEntry.ofValue (.object fields) = entry at h
      rcases goes_bind_run_iff.mp h with ⟨e, hasked, rfl⟩ | ⟨stands, u, hasked, hgoes⟩
      · obtain ⟨rfl, hfinds⟩ := finds_of_goes_asked hasked
        exact ⟨rfl, by simp [hfinds.eq_false_of_error]⟩
      obtain ⟨rfl, hfinds⟩ := finds_of_goes_asked hasked
      rcases goes_bind_run_iff.mp hgoes with ⟨e, hrest, rfl⟩ | ⟨es, v, hrest, hdone⟩
      · obtain ⟨rfl, hiff⟩ := ih hrest
        exact ⟨rfl, by simp [← hiff]⟩
      obtain ⟨rfl, hiff⟩ := ih hrest
      obtain ⟨rfl, rfl⟩ := goes_pure_run_iff.mp hdone
      refine ⟨rfl, ?_⟩
      rw [← hfinds.isBacked_iff, ← hiff]
      cases stands <;> simp
    | _ =>
      obtain ⟨hw, hiff⟩ := ih h
      exact ⟨hw, by simpa using hiff⟩

theorem tolerates_iff_of_goes_load {r : Except Fault (List HistoryEntry)}
    (h : (load.run.run l).Goes (World.turns test) w (r, l') w') :
    (∃ es, r = .ok es ∧ ∀ e ∈ es, IsBacked w.disk e) ↔
      ∃ items, itemsIn w.nesting w.disk l.path = .ok items ∧ ∀ fields, .object fields ∈ items →
        (HistoryEntry.ofValue (.object fields)).backupRef.isTolerable = true := by
  obtain ⟨items, u, hitems, hdisk, hstanding⟩ | ⟨e, hnone, rfl⟩ :=
    of_goes_standingIn (of_goes_load h).1
  · rw [← hdisk, (standing_tolerates_iff hstanding).2, hdisk, hitems]
    simp
  · rw [hnone]
    simp

/-- A ledger can be read, and only entries with backups are found, if and only if its file is not
nested too deep and no object in it refers to a backup by a value that a path cannot be. -/
theorem load_tolerates_iff (l : Ledger) (w : World) :
    (∃ es, (Dialogue.run World.host (load.run.run l) w).1.1 = .ok es ∧
        ∀ e ∈ es, IsBacked w.disk e) ↔
      ∃ items, itemsIn w.nesting w.disk l.path = .ok items ∧ ∀ fields, .object fields ∈ items →
        (HistoryEntry.ofValue (.object fields)).backupRef.isTolerable = true :=
  tolerates_iff_of_goes_load (World.goes_turns (goes_run World.host (load.run.run l) w))

/-- A machine with a ledger that refers to a backup by a list. -/
def damaged : World where
  disk :=
    { nodes := [(["h.json"],
        .file (Utf8.encode "[\x7b\"backupPath\": [1]\x7d]") ⟨2024, 1, 2, 3, 4, 5, 6⟩)] }
  now := ⟨2024, 1, 2, 3, 4, 5, 6⟩

/-- A damaged ledger can end what it is read for. -/
theorem not_load_tolerates :
    ¬ ∀ (l : Ledger) (w : World), ∃ es,
      (Dialogue.run World.host (load.run.run l) w).1.1 = .ok es ∧
        ∀ e ∈ es, IsBacked w.disk e := by
  intro htolerates
  obtain ⟨es, hload, -⟩ := htolerates ⟨"/h.json", 50, none⟩ damaged
  have hfault : (Dialogue.run World.host (load.run.run ⟨"/h.json", 50, none⟩)
      damaged).1.1.toOption.isNone = true := by decide +kernel
  rw [hload] at hfault
  cases hfault

end Ledger

end CodeGraft
