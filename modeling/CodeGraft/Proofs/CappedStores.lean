import CodeGraft.Proofs.BackupSeries
import CodeGraft.Proofs.UnsavedLedgers

/-!
# Stores with a cap

A number says how many backups and entries are kept, and any integer can be given. Backups are taken
off the end of the list until it is short enough, which it never is for a number below zero; the
entries are cut, and from a number below zero that drops the last ones only. A store that may keep no
backup takes one, gives its path and has removed it by then.
-/

namespace CodeGraft

open Text Dialogue Disk

namespace Path

theorem holdsNull_eq_false_iff {path : Text} : holdsNull path = false ↔ '\x00' ∉ path := by
  simp [holdsNull]

theorem basename_subset (path : Text) : basename path ⊆ path := by
  intro c hc
  rw [basename, List.mem_reverse] at hc
  exact List.mem_reverse.mp ((List.takeWhile_sublist _).subset hc)

theorem dirname_subset (path : Text) : dirname path ⊆ path := by
  have hhead : (path.reverse.dropWhile (· ≠ '/')).reverse ⊆ path := fun c hc =>
    List.mem_reverse.mp ((List.dropWhile_sublist _).subset (List.mem_reverse.mp hc))
  intro c hc
  rw [dirname] at hc
  split at hc
  · exact hhead hc
  · exact hhead (List.mem_reverse.mp ((List.dropWhile_sublist _).subset (List.mem_reverse.mp hc)))

theorem holdsNull_dirname {path : Text} (h : holdsNull path = false) :
    holdsNull (dirname path) = false :=
  holdsNull_eq_false_iff.mpr fun hmem => holdsNull_eq_false_iff.mp h (dirname_subset path hmem)

theorem holdsNull_parent {path : Text} (h : holdsNull path = false) :
    holdsNull (parentAndName path).1 = false := by
  rw [parentAndName]
  dsimp only
  split
  · exact holdsNull_dirname (holdsNull_dirname h)
  · exact holdsNull_dirname h

theorem holdsNull_join {base path : Text} (hbase : holdsNull base = false)
    (h : holdsNull path = false) : holdsNull (join base path) = false := by
  rw [holdsNull_eq_false_iff] at hbase h ⊢
  unfold join
  split
  · exact h
  · split
    · simp [hbase, h]
    · simp [hbase, h]

end Path

theorem Backup.holdsNull_name {path : Text} (h : Path.holdsNull path = false) (taken : Instant)
    (count : Nat) : Path.holdsNull (name path taken count) = false := by
  rw [Path.holdsNull_eq_false_iff] at h ⊢
  have hbase : '\x00' ∉ Path.basename path := fun hmem => h (Path.basename_subset path hmem)
  have hpadded : ∀ width n, '\x00' ∉ Instant.padded width n := Instant.not_mem_padded rfl
  have hnumber : ∀ n, '\x00' ∉ ofNat n := not_mem_ofNat rfl
  have hstamp : '\x00' ∉ taken.stamp := by simp [Instant.stamp, glue, hpadded, hnumber]
  by_cases hcount : count = 0 <;> simp [name, glue, hbase, hstamp, hnumber, hcount]

def Fault.IsDisk (e : Fault) : Prop := ∃ refusal, e = .disk refusal

section

variable {test : Call → World → Bool} {w w' : World} {e : Fault}

theorem World.isDisk_of_change_error {path : Text} {answer : Except DiskRefusal Disk}
    (hproper : Path.holdsNull path = false) (h : w.change path answer = (.error e, w')) :
    e.IsDisk := by
  unfold change ask at h
  rw [if_neg (by simp [hproper])] at h
  cases answer with
  | ok disk => cases h
  | error refusal =>
    cases h
    exact ⟨_, rfl⟩

theorem isDisk_of_makeLastFolder {path : Text} (hproper : Path.holdsNull path = false)
    (h : (Machine.makeLastFolder path).run.Goes (Host.steps World.host test) w (.error e) w') :
    e.IsDisk := by
  rcases goes_tryCatch_run_iff.mp h with ⟨u, -, heq⟩ | ⟨e', u, hmake, hrest⟩
  · cases heq
  obtain ⟨refusal, rfl⟩ := World.isDisk_of_change_error hproper (goes_question_iff.mp hmake).2
  obtain ⟨stands, v, -, hrest⟩ := goes_lift_bind_run_iff.mp hrest
  split at hrest
  · obtain ⟨heq, -⟩ := goes_throw_run_iff.mp hrest
    exact ⟨refusal, Except.error.inj heq⟩
  · cases (goes_pure_run_iff.mp hrest).1

theorem isDisk_of_makeFoldersUpTo {bound : Nat} {path : Text}
    (hproper : Path.holdsNull path = false)
    (h : (Machine.makeFoldersUpTo bound path).run.Goes (Host.steps World.host test) w (.error e)
      w') : e.IsDisk := by
  induction bound generalizing path e w w' with
  | zero => cases (goes_pure_run_iff.mp h).1
  | succ bound ih =>
    rw [Machine.makeFoldersUpTo] at h
    dsimp only at h
    split at h
    · exact isDisk_of_makeLastFolder hproper h
    · obtain ⟨stands, u, -, h⟩ := goes_lift_bind_run_iff.mp h
      split at h
      · exact isDisk_of_makeLastFolder hproper h
      rcases goes_bind_run_iff.mp h with ⟨e₁, hparent, heq⟩ | ⟨⟨⟩, v, -, h⟩
      · obtain rfl := Except.error.inj heq
        rcases goes_tryCatch_run_iff.mp hparent with ⟨a, -, heq⟩ | ⟨e₂, x, hfailed, hrest⟩
        · cases heq
        have hdisk := ih (Path.holdsNull_parent hproper) hfailed
        split at hrest
        · cases (goes_pure_run_iff.mp hrest).1
        · obtain ⟨heq, -⟩ := goes_throw_run_iff.mp hrest
          rwa [Except.error.inj heq]
      · split at h
        · exact isDisk_of_makeLastFolder hproper h
        · cases (goes_pure_run_iff.mp h).1

end

namespace BackupStore

variable {test : Call → World → Bool} {w w' : World} {store store' : BackupStore} {limit : Int}

theorem isDisk_of_create {folder path content : Text} {e : Fault}
    (hfolder : Path.holdsNull folder = false) (hpath : Path.holdsNull path = false)
    (h : (create folder path content).run.Goes (Host.steps World.host test) w (.error e) w') :
    e.IsDisk := by
  rcases goes_bind_run_iff.mp h with ⟨e', hmake, heq⟩ | ⟨⟨⟩, u, -, h⟩
  · obtain rfl := Except.error.inj heq
    exact isDisk_of_makeFoldersUpTo hfolder hmake
  obtain ⟨taken, v, -, h⟩ := goes_lift_bind_run_iff.mp h
  obtain ⟨names, v, -, h⟩ := goes_lift_bind_run_iff.mp h
  obtain ⟨target, v, htarget, h⟩ := goes_lift_bind_run_iff.mp h
  rcases goes_bind_run_iff.mp h with ⟨e', hwrite, heq⟩ | ⟨⟨⟩, x, -, h⟩
  · obtain rfl := Except.error.inj heq
    let place (count : Nat) := Path.join folder (Backup.name path taken count)
    obtain ⟨count, -, rfl⟩ := (mem_places_iff place).mp (of_goes_firstFree htarget).2.1
    exact World.isDisk_of_change_error
      (Path.holdsNull_join hfolder (Backup.holdsNull_name hpath taken count))
      (goes_question_iff.mp hwrite).2
  · cases (goes_pure_run_iff.mp h).1

/-! ### Trimming to any limit -/

/-- A store keeps as many as the limit says, and none by a limit below zero; but that is a fault. -/
theorem eq_of_goes_trim {step : Step Answer World} {paths : List Text} {r : Except Fault Unit}
    (hlimit : store.limit = some limit) (h : ((trim paths).run.run store).Goes step w (r, store') w') :
    r = (if limit < 0 then .error .nothingLeft else .ok ()) ∧
      store' = { store with known := some (paths.take limit.toNat) } := by
  rw [trim, goes_get_bind_work_iff] at h
  simp only [hlimit] at h
  rw [goes_modify_bind_work_iff] at h
  obtain ⟨⟨⟩, u, -, h⟩ := goes_lift_bind_work_iff.mp h
  split at h
  next hnegative =>
    rw [if_pos hnegative]
    exact (goes_throw_work_iff.mp h).1
  next hpositive =>
    rw [if_neg hpositive]
    exact (goes_pure_work_iff.mp h).1

theorem eq_of_goes_first_backups {step : Step Answer World} [World.Tame step]
    {r : Except Fault (List Text)} (hknown : store.known = none) (hlimit : store.limit = some limit)
    (h : (backups.run.run store).Goes step w (r, store') w') :
    r = (if limit < 0 then .error .nothingLeft else .ok (store.listing w.disk limit.toNat)) ∧
      store' = { store with known := some (store.listing w.disk limit.toNat) } := by
  obtain ⟨u, found, -, htrim, rfl⟩ := exists_trim_of_goes_backups hknown h
  obtain ⟨rfl, rfl⟩ := eq_of_goes_trim hlimit htrim
  rw [listing, hknown, Option.getD_none]
  refine ⟨?_, rfl⟩
  split <;> rfl

theorem length_listing_le (hknown : store.known = none) (d : Disk) (number : Nat) :
    (store.listing d number).length ≤ number := by
  rw [listing, hknown, Option.getD_none]
  exact List.length_take_le _ _

/-- By a limit below zero no backup is taken. By any other there is no fault, and the store lists no
more than the limit says. -/
theorem of_goes_first_backup {path content : Text} {r : Except Fault (Option Text)}
    (hknown : store.known = none) (hlimit : store.limit = some limit)
    (hfolder : Path.holdsNull store.folder = false) (hpath : Path.holdsNull path = false)
    (h : ((backup path content).run.run store).Goes (Host.steps World.host test) w (r, store') w') :
    (limit < 0 ∧ r = .error .nothingLeft) ∨
      0 ≤ limit ∧ ∃ ref? paths, r = .ok ref? ∧ store'.known = some paths ∧
        paths.length ≤ limit.toNat := by
  rcases backup_stages h with ⟨e, hload, rfl⟩ | ⟨known, loaded, u, hload, hrest⟩
  · obtain ⟨heq, -⟩ := eq_of_goes_first_backups hknown hlimit hload
    split at heq
    next hnegative => exact .inl ⟨hnegative, by rw [Except.error.inj heq]⟩
    next => cases heq
  obtain ⟨heq, rfl⟩ := eq_of_goes_first_backups hknown hlimit hload
  split at heq
  next => cases heq
  next hpositive =>
  refine .inr ⟨by omega, ?_⟩
  have hlooked : ({ store with known := some (store.listing w.disk limit.toNat) } :
      BackupStore).limit = some limit := hlimit
  rcases hrest with ⟨e, v, hcreate, hrefused, -, rfl, -⟩ | ⟨target, v, found, x, -, htrim, -, rfl⟩
  · obtain ⟨refusal, he⟩ := isDisk_of_create hfolder hpath hcreate
    exact ⟨none, _, hrefused refusal he, rfl, length_listing_le hknown _ _⟩
  · obtain ⟨rfl, rfl⟩ := eq_of_goes_trim hlooked htrim
    rw [if_neg hpositive]
    exact ⟨some target, _, rfl, rfl, List.length_take_le _ _⟩

end BackupStore

theorem Disk.exists_remove_of_read {d : Disk} {path : Text} {content : Bytes}
    (h : d.read path = .ok content) : ∃ d', d.remove path = .ok d' ∧ d'.holds path = false := by
  obtain ⟨place, modified, hplace, hnode, hname⟩ := exists_of_read h
  have hremove : d.remove path = .ok (d.erase place) := by
    rw [remove, nodeAt_of_file hplace hnode hname, hplace]
    rfl
  refine ⟨_, hremove, Bool.eq_false_iff.mpr fun hholds => ?_⟩
  obtain ⟨found, node, hfound, hstands⟩ := exists_of_holds hholds
  rw [eq_of_placeOf hfound, node?_of_remove hremove] at hstands
  have hcurrent : (d.erase place).current = d.current := rfl
  rw [hcurrent, if_pos rfl] at hstands
  cases hstands

namespace BackupStore

variable {test : Call → World → Bool} {w w' : World} {store store' : BackupStore}

theorem not_holds_of_goes_trim {ref : Text} {content : Bytes} {r : Except Fault Unit}
    (hlimit : store.limit = some 0) (hproper : Path.holdsNull ref = false)
    (hread : w.disk.read ref = .ok content)
    (h : ((trim [ref]).run.run store).Goes (Host.steps World.host test) w (r, store') w') :
    w'.disk.holds ref = false := by
  rw [trim, goes_get_bind_work_iff] at h
  simp only [hlimit] at h
  rw [goes_modify_bind_work_iff] at h
  obtain ⟨⟨⟩, u, hremove, h⟩ := goes_lift_bind_work_iff.mp h
  obtain ⟨-, rfl⟩ := goes_pure_work_iff.mp h
  obtain ⟨disk, hdisk, hgone⟩ := exists_remove_of_read hread
  obtain ⟨a, v, hask, hrest⟩ := goes_bind_iff.mp hremove
  obtain ⟨-, hhost⟩ := goes_question_iff.mp hask
  rw [World.host, World.change_eq_ok_iff.mpr ⟨hproper, disk, hdisk, rfl⟩] at hhost
  cases hhost
  obtain ⟨-, rfl⟩ := goes_pure_iff.mp hrest
  exact hgone

/-- The reference to a backup is of no use if the store may keep none: the file has gone. -/
theorem not_holds_of_goes_first_backup {path content ref : Text} (hknown : store.known = none)
    (hlimit : store.limit = some 0)
    (h : ((backup path content).run.run store).Goes (Host.steps World.host test) w
      (.ok (some ref), store') w') : w'.disk.holds ref = false := by
  rcases backup_stages h with ⟨e, -, heq⟩ | ⟨known, loaded, u, hload, hrest⟩
  · cases heq
  obtain ⟨heq, rfl⟩ := eq_of_goes_first_backups hknown hlimit hload
  have hnone : store.listing w.disk (0 : Int).toNat = [] :=
    List.eq_nil_of_length_eq_zero (Nat.le_zero.mp (length_listing_le hknown _ _))
  rw [if_neg (by decide), hnone] at heq
  obtain rfl := Except.ok.inj heq
  rcases hrest with ⟨e, v, -, -, hr, -⟩ | ⟨target, v, found, x, hcreate, htrim, hdisk, heq⟩
  · cases hr
  obtain rfl : ref = target := by
    cases found with
    | error => cases heq
    | ok => exact Option.some.inj (Except.ok.inj heq)
  obtain ⟨⟨e, heq⟩, -⟩ | ⟨name, part, hbegun, ⟨e, heq⟩ | ⟨heq, -, hproper⟩⟩ :=
    create_cases hcreate
  · cases heq
  · cases heq
  obtain rfl := Except.ok.inj heq
  rw [hdisk]
  have hlooked : ({ store with known := some (store.listing w.disk (0 : Int).toNat) } :
      BackupStore).limit = some 0 := hlimit
  exact not_holds_of_goes_trim hlooked hproper hbegun.read_eq htrim

end BackupStore

namespace Ledger

theorem length_kept_of_negative {limit : Int} (h : limit < 0) (entries : List HistoryEntry) :
    (kept limit entries).length = entries.length - limit.natAbs := by
  rw [kept, if_neg (by omega), List.length_take]
  omega

/-- How many are kept is what the limit says, or else too many are there for a limit below zero. -/
theorem length_kept_le_iff (limit : Int) (entries : List HistoryEntry) :
    (kept limit entries).length ≤ limit.toNat ↔ 0 ≤ limit ∨ entries.length ≤ limit.natAbs := by
  rcases Int.lt_or_le limit 0 with hnegative | hpositive
  · rw [length_kept_of_negative hnegative]
    omega
  · rw [length_kept limit entries hpositive]
    omega

end Ledger

/-- Stores keep to a cap from zero up: there is no fault, no more backups are listed and no more
entries are kept. A backup that was taken is there if the cap is not zero. By a cap below zero each
call of a backup store is a fault, and a ledger keeps all entries but as many of the oldest. -/
theorem caps_hold_from_zero {w : World} (hsound : w.disk.Sound) (cap : Int) {folder path : Text}
    (content : Text) (hfolder : Path.holdsNull folder = false)
    (hpath : Path.holdsNull path = false) :
    let store : BackupStore := ⟨folder, some cap, none⟩
    let looked := Dialogue.run World.host (BackupStore.backups.run.run store) w
    let taken := Dialogue.run World.host ((BackupStore.backup path content).run.run store) w
    (cap < 0 → looked.1.1 = .error .nothingLeft ∧ taken.1.1 = .error .nothingLeft) ∧
      (0 ≤ cap →
        (∃ paths, looked.1.1 = .ok paths ∧ paths.length ≤ cap.toNat) ∧
        ∃ ref? paths, taken.1.1 = .ok ref? ∧ taken.1.2.Lists taken.2.1 paths ∧
          paths.length ≤ cap.toNat ∧
          ∀ ref, ref? = some ref →
            (1 ≤ cap → taken.2.1.disk.read ref = .ok (Utf8.encode content)) ∧
            (cap = 0 → taken.2.1.disk.holds ref = false)) ∧
      ∀ (ledger : Ledger) (entry : HistoryEntry), ledger.limit = cap → entry.IsLinked →
        let recorded := Dialogue.run World.host ((Ledger.record entry).run.run ledger) w
        (∃ e, ledger.Tells World.steps w (.error e) ∧ recorded.1.1 = .error e) ∨
          ∃ es now, ledger.Tells World.steps w (.ok es) ∧
            (∀ r, recorded.1.2.Tells World.steps recorded.2.1 r ↔
              r = .ok (Ledger.kept cap (entry.stamped now :: es))) ∧
            ((Ledger.kept cap (entry.stamped now :: es)).length ≤ cap.toNat ↔
              0 ≤ cap ∨ es.length < cap.natAbs) := by
  intro store looked taken
  have hlooked := goes_run World.host (BackupStore.backups.run.run store) w
  have htaken : ((BackupStore.backup path content).run.run store).Goes World.steps w
    (taken.1.1, taken.1.2) taken.2.1 := goes_run World.host _ w
  have hbackups : looked.1.1 =
      if cap < 0 then .error .nothingLeft else .ok (store.listing w.disk cap.toNat) :=
    (BackupStore.eq_of_goes_first_backups rfl rfl hlooked).1
  have hbackup := BackupStore.of_goes_first_backup rfl rfl hfolder hpath htaken
  refine ⟨fun hnegative => ?_, fun hpositive => ?_, fun ledger entry hcap hlinked => ?_⟩
  · rw [if_pos hnegative] at hbackups
    rcases hbackup with ⟨-, hr⟩ | ⟨h, -⟩
    · exact ⟨hbackups, hr⟩
    · omega
  · rw [if_neg (by omega)] at hbackups
    refine ⟨⟨_, hbackups, BackupStore.length_listing_le rfl _ _⟩, ?_⟩
    rcases hbackup with ⟨h, -⟩ | ⟨-, ref?, paths, hr, hknown, hlength⟩
    · omega
    refine ⟨ref?, paths, hr, BackupStore.lists_of_known hknown _, hlength, ?_⟩
    rintro ref rfl
    rw [hr] at htaken
    refine ⟨fun hroom => ?_, ?_⟩
    · obtain ⟨names, hfinds⟩ := BackupStore.exists_finds hsound (rfl : store.known = none)
      obtain ⟨kept, -, ⟨_, _, _, -, hnone, -⟩ | ⟨name, heq, hstored⟩⟩ :=
        BackupStore.backup_cases hfinds rfl hpositive htaken
      · cases hnone
      · obtain rfl := Option.some.inj (Except.ok.inj heq)
        exact hstored.read (by omega)
    · rintro rfl
      exact BackupStore.not_holds_of_goes_first_backup rfl rfl htaken
  · intro recorded
    subst hcap
    have hrecorded : ((Ledger.record entry).run.run ledger).Goes World.steps w
      (recorded.1.1, recorded.1.2) recorded.2.1 := goes_run World.host _ w
    refine (Ledger.record_stages hlinked hrecorded).imp id fun ⟨es, now, hes, hledger⟩ => ?_
    have hknown := congrArg Ledger.known hledger
    refine ⟨es, now, hes, Ledger.tells_of_known hknown _, ?_⟩
    rw [Ledger.length_kept_le_iff, List.length_cons]
    omega

/-- A store that may keep no backup gives the path of one that has gone. -/
theorem caps_hold_from_zero_of_none :
    let store : BackupStore := ⟨"/b", some 0, none⟩
    let taken := Dialogue.run World.host ((BackupStore.backup "/ws/a.js" "1").run.run store)
      BackupStore.stopped
    let ref : Text := "/b/a.js.2024-01-02T03-04-05-000006Z.bak"
    taken.1.1.toOption = some (some ref) ∧ taken.2.1.disk.holds ref = false := by
  intro store taken ref
  have hsound : BackupStore.stopped.disk.Sound := ⟨by decide +kernel, by decide +kernel⟩
  have htaken : taken.1.1.toOption = some (some ref) := by decide +kernel
  obtain ⟨-, hcap, -⟩ := caps_hold_from_zero hsound 0 "1"
    (rfl : Path.holdsNull "/b" = false) (rfl : Path.holdsNull "/ws/a.js" = false)
  obtain ⟨-, ref?, paths, hr, -, -, href⟩ := hcap (Int.le_refl 0)
  have heq := eq_ok_of_toOption htaken
  exact ⟨htaken, (href ref (Except.ok.inj (hr.symm.trans heq))).2 rfl⟩

/-- By a cap below zero a store cannot even look into its folder. -/
theorem not_caps_hold :
    ¬ ∀ (cap : Int) (w : World), w.disk.Sound → ∃ paths,
      (Dialogue.run World.host (BackupStore.backups.run.run ⟨"/b", some cap, none⟩) w).1.1 =
          .ok paths ∧ paths.length ≤ cap.toNat := by
  intro hcaps
  have hsound : BackupStore.stopped.disk.Sound := ⟨by decide +kernel, by decide +kernel⟩
  obtain ⟨paths, hlooked, -⟩ := hcaps (-1) BackupStore.stopped hsound
  have hfault : (Dialogue.run World.host (BackupStore.backups.run.run ⟨"/b", some (-1), none⟩)
      BackupStore.stopped).1.1.toOption.isNone = true := by decide +kernel
  rw [hlooked] at hfault
  cases hfault

end CodeGraft
