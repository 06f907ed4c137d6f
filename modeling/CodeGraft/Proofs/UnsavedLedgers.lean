import CodeGraft.Proofs.PairedStores

/-!
# Ledgers that could not be saved

A ledger changes what it has in mind first, and its file afterwards. Whether or not the file can be
written, it goes on with the change: an entry that was not recorded is told with the others, and a
ledger that could not be cleared tells nothing.
-/

namespace CodeGraft

open Text Dialogue Disk

abbrev World.steps : Step Answer World := Host.steps World.host fun _ _ => true

def HistoryEntry.IsLinked (e : HistoryEntry) : Prop :=
  e.filePath.isFilled = true ∧ e.backupRef.isFilled = true

namespace Ledger

/-- What a ledger can tell when it is asked for its entries on a machine, at some time. -/
def Tells (l : Ledger) (step : Step Answer World) (w : World)
    (r : Except Fault (List HistoryEntry)) : Prop :=
  ∃ u l' u', u.disk = w.disk ∧ u.toSurroundings = w.toSurroundings ∧
    (entries.run.run l).Goes step u (r, l') u'

theorem tells_of_known {step : Step Answer World} {l : Ledger} {known : List HistoryEntry}
    (h : l.known = some known) (w : World) (r : Except Fault (List HistoryEntry)) :
    l.Tells step w r ↔ r = .ok known := by
  have hentries : ∀ {r u k v}, (entries.run.run l).Goes step u (r, k) v ↔
      (r = .ok known ∧ k = l) ∧ v = u := by
    intro r u k v
    rw [entries, goes_get_bind_work_iff, h]
    exact goes_pure_work_iff
  constructor
  · rintro ⟨u, k, v, -, -, hgoes⟩
    exact (hentries.mp hgoes).1.1
  · rintro rfl
    exact ⟨w, l, w, rfl, rfl, hentries.mpr ⟨⟨rfl, rfl⟩, rfl⟩⟩

theorem Tells.of_disk_eq {step : Step Answer World} {l : Ledger} {u w : World}
    {r : Except Fault (List HistoryEntry)} (h : l.Tells step u r) (hdisk : u.disk = w.disk)
    (hsame : u.toSurroundings = w.toSurroundings) : l.Tells step w r := by
  obtain ⟨v, l', v', hv, hvSame, hgoes⟩ := h
  exact ⟨v, l', v', hv.trans hdisk, hvSame.trans hsame, hgoes⟩

variable {step : Step Answer World} [World.Tame step] {w w' : World} {l l' : Ledger}

/-- Whatever becomes of the file, an entry that has a time comes in front of the others. -/
theorem enter_stages {entry : HistoryEntry} {r : Except Fault (Bool × HistoryEntry)}
    (h : ((enter entry).run.run l).Goes step w (r, l') w') :
    (∃ e, l.Tells step w (.error e) ∧ r = .error e) ∨
      ∃ es, l.Tells step w (.ok es) ∧
        l' = { l with known := some (kept l.limit (entry :: es)) } := by
  rcases goes_bind_work_iff.mp h with ⟨e, hentries, rfl⟩ | ⟨es, k, v, hentries, h⟩
  · exact .inl ⟨e, ⟨w, l', w', rfl, rfl, hentries⟩, rfl⟩
  refine .inr ⟨es, ⟨w, k, v, rfl, rfl, hentries⟩, ?_⟩
  obtain rfl := of_goes_entries_ok hentries
  rw [goes_modify_bind_work_iff] at h
  dsimp only at h
  generalize ({ l with known := some (kept l.limit (entry :: es)) } : Ledger) = entered at h ⊢
  have hsaved : ∀ {a : Except Fault (Bool × HistoryEntry)} {k x},
      ((do save; return (true, entry) : Work (Bool × HistoryEntry)).run.run entered).Goes step v
        (a, k) x → k = entered := by
    intro a k x hgoes
    rcases goes_bind_work_iff.mp hgoes with ⟨e, hsave, -⟩ | ⟨⟨⟩, k', x', hsave, hdone⟩
    · exact (of_goes_save hsave).1
    · obtain ⟨⟨-, rfl⟩, -⟩ := goes_pure_work_iff.mp hdone
      exact (of_goes_save hsave).1
  rcases goes_tryCatch_work_iff.mp h with ⟨b, hdone, -⟩ | ⟨e, k, x, hfailed, hrest⟩
  · exact hsaved hdone
  obtain rfl := hsaved hfailed
  split at hrest
  next =>
    obtain ⟨⟨⟩, y, -, hrest⟩ := goes_lift_bind_work_iff.mp hrest
    exact (goes_pure_work_iff.mp hrest).1.2
  next => exact (goes_throw_work_iff.mp hrest).1.2

/-- Unless the ledger cannot be read, an entry that is linked comes in front of the others. -/
theorem record_stages {entry : HistoryEntry} {r : Except Fault (Bool × HistoryEntry)}
    (hlinked : entry.IsLinked) (h : ((record entry).run.run l).Goes step w (r, l') w') :
    (∃ e, l.Tells step w (.error e) ∧ r = .error e) ∨
      ∃ es now, l.Tells step w (.ok es) ∧
        l' = { l with known := some (kept l.limit (entry.stamped now :: es)) } := by
  have hentered : ∃ u now, u.disk = w.disk ∧ u.toSurroundings = w.toSurroundings ∧
      ((enter (entry.stamped now)).run.run l).Goes step u (r, l') w' := by
    rw [record, if_neg (by simp [hlinked.1, hlinked.2])] at h
    unfold HistoryEntry.stamped
    split at h
    next hstamped =>
      simp only [hstamped, if_true]
      exact ⟨w, w.now, rfl, rfl, h⟩
    next hunstamped =>
      simp only [hunstamped]
      obtain ⟨now, u, hclock, h⟩ := goes_lift_bind_work_iff.mp h
      exact ⟨u, now, World.disk_of_still (still_call rfl) hclock,
        World.surroundings_of_goes hclock, h⟩
  obtain ⟨u, now, hdisk, hsame, hgoes⟩ := hentered
  rcases enter_stages hgoes with ⟨e, hunread, hr⟩ | ⟨es, hes, hl⟩
  · exact .inl ⟨e, hunread.of_disk_eq hdisk hsame, hr⟩
  · exact .inr ⟨es, now, hes.of_disk_eq hdisk hsame, hl⟩

theorem of_goes_clear {r : Except Fault Unit} (h : (clear.run.run l).Goes step w (r, l') w') :
    l' = { l with known := some [] } := by
  rw [clear, goes_modify_bind_work_iff] at h
  exact (of_goes_save h).1

/-- A ledger that was not written tells the change all the same. One that refuses an entry, as it is
not linked, stays as it is. -/
theorem unsaved_changes_stay :
    (∀ {entry shown : HistoryEntry},
      ((record entry).run.run l).Goes step w (.ok (false, shown), l') w' →
        (entry.IsLinked → ∃ es now, l.Tells step w (.ok es) ∧
          ∀ r, l'.Tells step w' r ↔ r = .ok (kept l.limit (entry.stamped now :: es))) ∧
        (¬ entry.IsLinked → l' = l ∧ w' = w)) ∧
      ∀ {e : Fault}, (clear.run.run l).Goes step w (.error e, l') w' →
        ∀ r, l'.Tells step w' r ↔ r = .ok [] := by
  refine ⟨fun {entry shown} h => ⟨fun hlinked => ?_, fun hfree => ?_⟩, fun {e} h => ?_⟩
  · obtain ⟨e, -, heq⟩ | ⟨es, now, hes, rfl⟩ := record_stages hlinked h
    · cases heq
    · exact ⟨es, now, hes, tells_of_known rfl w'⟩
  · exact (eq_of_goes_record_of_empty hfree h).2
  · obtain rfl := of_goes_clear h
    exact tells_of_known rfl w'

def datedEntry : HistoryEntry := .ofTexts "/ws/a.js" "/b/1.bak" "first" "2024"

/-- A ledger below a file, which has read that it is empty. -/
def misplaced : Ledger := ⟨"/f/history.json", 5, some []⟩

/-- A machine with a backup and a file in the way. -/
def jammed : World where
  disk :=
    { nodes := [(["b"], .folder), (["b", "1.bak"], .file [] ⟨2024, 1, 2, 3, 4, 5, 6⟩),
        (["f"], .file [] ⟨2024, 1, 2, 3, 4, 5, 6⟩)] }
  now := ⟨2024, 1, 2, 3, 4, 5, 6⟩

theorem goes_record_jammed :
    ((record datedEntry).run.run misplaced).Goes World.steps jammed
      (.ok (false, datedEntry), { misplaced with known := some [datedEntry] }) jammed :=
  goes_run World.host ((record datedEntry).run.run misplaced) jammed

theorem unsaved_changes_stay_of_jammed :
    { misplaced with known := some [datedEntry] }.Tells World.steps jammed (.ok [datedEntry]) ∧
      ¬ { misplaced with known := some [datedEntry] }.Tells World.steps jammed (.ok []) := by
  obtain ⟨es, now, hbefore, hafter⟩ := (unsaved_changes_stay.1 goes_record_jammed).1 ⟨rfl, rfl⟩
  obtain rfl := Except.ok.inj ((tells_of_known rfl jammed _).mp hbefore)
  exact ⟨(hafter _).mpr rfl, fun hnone => by cases (hafter _).mp hnone⟩

/-- A change that could not be saved is not undone. -/
theorem not_unsaved_changes_undone :
    ¬ ∀ (l l' : Ledger) (w w' : World) (entry shown : HistoryEntry)
        (r : Except Fault (List HistoryEntry)),
      ((record entry).run.run l).Goes World.steps w (.ok (false, shown), l') w' →
        (l'.Tells World.steps w' r ↔ l.Tells World.steps w r) := by
  intro hundone
  have hsame := hundone _ _ _ _ _ _ (.ok []) goes_record_jammed
  have hnone := hsame.mpr ((tells_of_known rfl jammed _).mpr rfl)
  cases (tells_of_known rfl jammed _).mp hnone

end Ledger

end CodeGraft
