import CodeGraft.Proofs.CappedStores
import CodeGraft.Proofs.Fits
import CodeGraft.Proofs.NeededChars
import CodeGraft.Proofs.NormalPaths
import Mathlib.Algebra.Group.Nat.Defs

/-!
# Names of files and of their backups

Behind the name of its file a backup has a dot, the stamp of an instant, perhaps a number, and the
ending of all backups. None of these parts holds a dot but the first and the last, so the stretch that
is cut off again begins at the last dot but one. Whatever the file is called, its name is what is left.
-/

namespace CodeGraft

open Text Dialogue

theorem Text.isDigit_of_ascii {c : Char} (h : c.isDigit = true) : isDigit c = true := by
  obtain ⟨hzero, hnine⟩ : 48 ≤ c.toNat ∧ c.toNat ≤ 57 := by
    simpa [Char.isDigit, UInt32.le_iff_toNat_le] using h
  have hfirst : (decide (48 ≤ c.toNat) && decide (c.toNat < 58)) = true := by
    simp only [Bool.and_eq_true, decide_eq_true_eq]
    omega
  simp [isDigit, digitValue?, digitZeros, hfirst]

theorem Text.length_ofNat_le_iff {n width : Nat} (hwidth : 0 < width) :
    (ofNat n).length ≤ width ↔ n < 10 ^ width := by
  rw [ofNat, Nat.toList_repr]
  exact Nat.length_toDigits_le_iff (by decide) hwidth

namespace Instant

theorem isDigit_of_mem_padded {c : Char} {width n : Nat} (h : c ∈ padded width n) :
    c.isDigit = true := by
  cases hc : c.isDigit with
  | true => rfl
  | false => exact absurd h (not_mem_padded hc width n)

theorem length_padded {width n : Nat} (hwidth : 0 < width) (h : n < 10 ^ width) :
    (padded width n).length = width := by
  have hle := (length_ofNat_le_iff hwidth).mpr h
  simp only [padded, List.length_append, List.length_replicate]
  omega

/-- The instant lies in a year of four digits, and its other numbers have as many digits as the stamp
has room for. The clock shows no other instants in the years from 1000 to 9999. -/
structure FitsStamp (t : Instant) : Prop where
  year_ge : 1000 ≤ t.year
  year_lt : t.year < 10 ^ 4
  month : t.month < 10 ^ 2
  day : t.day < 10 ^ 2
  hour : t.hour < 10 ^ 2
  minute : t.minute < 10 ^ 2
  second : t.second < 10 ^ 2
  micro : t.micro < 10 ^ 6

theorem FitsStamp.length_year {t : Instant} (h : t.FitsStamp) : (ofNat t.year).length = 4 := by
  have hle : (ofNat t.year).length ≤ 4 := (length_ofNat_le_iff (by decide)).mpr h.year_lt
  have hgt : ¬ (ofNat t.year).length ≤ 3 := by
    rw [length_ofNat_le_iff (by decide)]
    have := h.year_ge
    omega
  omega

end Instant

namespace Pattern

variable {p : Pattern} {ps : List Pattern} {front back behind : Text}

theorem Fits.cons (hp : p.Fits front (back ++ behind)) (hps : (cat ps).Fits back behind) :
    (cat (p :: ps)).Fits (front ++ back) behind := Fits.seq hp hps

theorem search?_isSome_of_fits (h : p.Fits back []) :
    (p.search? (Cursor.start (front ++ back))).isSome = true := by
  refine searchFrom_isSome_iff.mpr ⟨front, back, rfl, ?_⟩
  exact h _ some (by simp) fun _ _ => rfl

end Pattern

namespace Backup

open Pattern

variable {behind : Text}

/-- What stands between the dots behind the name of the file. -/
def mark (taken : Instant) (count : Nat) : Text :=
  taken.stamp ++ if count = 0 then [] else '-' :: ofNat count

theorem name_eq (path : Text) (taken : Instant) (count : Nat) :
    name path taken count = Path.basename path ++ ('.' :: (mark taken count ++ ".bak".toList)) := by
  simp [name, mark, glue]

theorem dot_not_mem_mark (taken : Instant) (count : Nat) : '.' ∉ mark taken count := by
  have hpadded : ∀ width n, '.' ∉ Instant.padded width n := Instant.not_mem_padded rfl
  have hnumber : ∀ n, '.' ∉ ofNat n := not_mem_ofNat rfl
  by_cases hcount : count = 0 <;> simp [mark, Instant.stamp, glue, hpadded, hnumber, hcount]

theorem fits_digits {text : Text} (h : ∀ c ∈ text, c.isDigit = true) :
    Fits (digits text.length) text behind := by
  induction text with
  | nil => exact fits_nothing
  | cons c text ih =>
    obtain ⟨hc, htext⟩ := List.forall_mem_cons.mp h
    exact Fits.seq (fits_one (isDigit_of_ascii hc)) (ih htext)

theorem fits_padded {width n : Nat} (hwidth : 0 < width) (h : n < 10 ^ width) :
    Fits (digits width) (Instant.padded width n) behind := by
  have hfits : Fits (digits (Instant.padded width n).length) (Instant.padded width n) behind :=
    fits_digits fun c hc => Instant.isDigit_of_mem_padded hc
  rwa [Instant.length_padded hwidth h] at hfits

/-- The parts of the tail between its two dots. -/
def markParts : List Pattern :=
  [digits 4, "-", digits 2, "-", digits 2, "T", digits 2, "-", digits 2, "-", digits 2, "-",
    digits 6, "Z", .optional (.seq "-" (.oneOrMore (.one isDigit)))]

def endParts : List Pattern := [".bak", .check fun _ rest => rest = [] || rest = ['\n']]

theorem tail_eq : tail = .seq "." (cat (markParts ++ endParts)) := rfl

theorem fits_number (count : Nat) :
    Fits (.optional (.seq "-" (.oneOrMore (.one isDigit))))
      (if count = 0 then [] else '-' :: ofNat count) behind := by
  split
  · exact Fits.alt_right fits_nothing
  · obtain ⟨c, rest, hnumber⟩ := List.exists_cons_of_ne_nil (ofNat_ne_nil count)
    have hdigits : ∀ x ∈ c :: rest, isDigit x = true :=
      fun x hx => isDigit_of_ascii (isDigit_of_mem_ofNat (hnumber ▸ hx))
    obtain ⟨hc, hrest⟩ := List.forall_mem_cons.mp hdigits
    have hsome : Fits (.oneOrMore (.one isDigit)) ([c] ++ rest) behind :=
      Fits.seq (fits_one hc) (fits_many_one hrest)
    rw [hnumber]
    exact Fits.alt_left (Fits.seq (fits_literal "-".toList) hsome)

theorem fits_tail {taken : Instant} (h : taken.FitsStamp) (count : Nat) :
    tail.Fits ('.' :: (mark taken count ++ ".bak".toList)) [] := by
  have hyear : ∀ behind, Fits (digits 4) (ofNat taken.year) behind := by
    intro behind
    rw [← h.length_year]
    exact fits_digits fun c hc => isDigit_of_mem_ofNat hc
  have hlast : (cat [.check fun _ rest => rest = [] || rest = ['\n']]).Fits ([] ++ []) [] :=
    Fits.cons (fits_check fun _ => rfl) fits_nothing
  have hend : (cat endParts).Fits (".bak".toList ++ []) [] := Fits.cons (fits_literal _) hlast
  have hparts := Fits.cons (hyear _) <| Fits.cons (fits_literal "-".toList) <|
    Fits.cons (fits_padded (by decide) h.month) <| Fits.cons (fits_literal "-".toList) <|
    Fits.cons (fits_padded (by decide) h.day) <| Fits.cons (fits_literal "T".toList) <|
    Fits.cons (fits_padded (by decide) h.hour) <| Fits.cons (fits_literal "-".toList) <|
    Fits.cons (fits_padded (by decide) h.minute) <| Fits.cons (fits_literal "-".toList) <|
    Fits.cons (fits_padded (by decide) h.second) <| Fits.cons (fits_literal "-".toList) <|
    Fits.cons (fits_padded (by decide) h.micro) <| Fits.cons (fits_literal "Z".toList) <|
    Fits.cons (fits_number count) hend
  have hdot : tail.Fits ('.' :: _) [] := Fits.seq (fits_literal ".".toList) hparts
  simpa [mark, Instant.stamp, glue] using hdot

theorem avoids_digits (count : Nat) : (digits count).Avoids '.' := by
  rw [digits, avoids_cat]
  intro p hp
  obtain rfl := List.eq_of_mem_replicate hp
  exact (by decide : isDigit '.' = false)

theorem avoids_markParts : (cat markParts).Avoids '.' := by
  have hnumber : (Pattern.optional (.seq "-" (.oneOrMore (.one isDigit)))).Avoids '.' :=
    ⟨⟨avoids_literal (by decide), rfl, rfl⟩, trivial⟩
  rw [avoids_cat]
  simp only [markParts, List.forall_mem_cons, avoids_digits, true_and]
  refine ⟨?_, ?_, ?_, ?_, ?_, ?_, ?_, hnumber, by simp⟩ <;> exact avoids_literal (by decide)

theorem eq_of_append_last_mark {x : Char} {front front' back back' : Text} (hback : x ∉ back)
    (hback' : x ∉ back') (h : front ++ x :: back = front' ++ x :: back') : front = front' := by
  have hreverse := congrArg List.reverse h
  simp only [List.reverse_append, List.reverse_cons, List.append_assoc, List.singleton_append]
    at hreverse
  refine List.reverse_injective (eq_of_append_mark ?_ ?_ hreverse)
  · rwa [List.mem_reverse]
  · rwa [List.mem_reverse]

/-- A stretch of the tail begins and goes on with a dot, a text without dots, and the ending. It stands
at the end, or in front of a last line feed. -/
theorem of_leads_tail {a b : Cursor} (h : tail.Leads a b) :
    ∃ between, a.rest = '.' :: (between ++ (".bak".toList ++ b.rest)) ∧ '.' ∉ between ∧
      (b.rest = [] ∨ b.rest = ['\n']) := by
  rw [tail_eq] at h
  obtain ⟨c, hdot, hrest⟩ := h.of_seq
  obtain ⟨d, hmark, hrest⟩ := hrest.of_cat_append
  obtain ⟨e, hbak, hrest⟩ := hrest.of_seq
  obtain ⟨f, hcheck, hnothing⟩ := hrest.of_seq
  obtain ⟨between, hbetween, hnone⟩ := hmark.passesNo avoids_markParts
  cases hnothing
  cases hcheck with
  | check hend =>
  refine ⟨between, ?_, hnone, by simpa using hend⟩
  rw [hdot.rest_of_literal, hbetween.rest_eq, hbak.rest_of_literal]
  rfl

theorem fileName_name {taken : Instant} (h : taken.FitsStamp) (path : Text) (count : Nat) :
    fileName (name path taken count) = Path.basename path := by
  have hbase : Path.basename (name path taken count) = name path taken count :=
    Path.basename_of_not_mem (isName_name path taken count).not_mem
  have hfound : (tail.search? (Cursor.start (name path taken count))).isSome = true := by
    rw [name_eq]
    exact search?_isSome_of_fits (fits_tail h count)
  obtain ⟨found, hsearch⟩ := Option.isSome_iff_exists.mp hfound
  obtain ⟨between, hrest, hnone, hend⟩ := of_leads_tail (leads_of_attempt (search?_attempt hsearch).1)
  obtain ⟨front, hfront⟩ := (search?_foundFrom hsearch).start_reached
  have hname : name path taken count =
      front ++ '.' :: (between ++ (".bak".toList ++ found.stop.rest)) := by
    rw [← hrest]
    exact hfront.rest_eq
  have hoffset : found.start.offset = front.length := by simpa [Cursor.start] using hfront.offset_eq
  -- a name ends with the ending of all backups, so no line feed stands behind it
  have hstop : found.stop.rest = [] := by
    rcases hend with hnil | hfeed
    · exact hnil
    · have hlast := congrArg (fun text => text.reverse.head?) hname
      rw [hfeed, name_eq] at hlast
      simp at hlast
  rw [hstop, name_eq, List.append_nil] at hname
  have hfront : Path.basename path = front := by
    refine eq_of_append_last_mark (dot_not_mem_mark taken count) hnone ?_
    rw [← List.append_left_inj ".bak".toList]
    simpa using hname
  rw [fileName, hbase, hsearch]
  dsimp only
  rw [hoffset, hstop, List.append_nil, name_eq, hfront, List.take_left]

end Backup

/-! ### Where a backup is put -/

theorem Disk.IsName.basename_join {name : Text} (h : IsName name) (folder : Text) :
    Path.basename (Path.join folder name) = name := by
  by_cases hempty : folder = []
  · subst hempty
    rw [h.nil_join]
    exact Path.basename_of_not_mem h.not_mem
  rw [h.join_eq hempty]
  split
  next hslash =>
    obtain ⟨front, rfl⟩ := List.getLast?_eq_some_iff.mp hslash
    rw [List.append_assoc, List.singleton_append]
    exact (Path.basename_append h.not_mem front).1
  next => exact (Path.basename_append h.not_mem folder).1

theorem Backup.fileName_join {taken : Instant} (h : taken.FitsStamp) (folder path : Text)
    (count : Nat) :
    fileName (Path.join folder (name path taken count)) = Path.basename path := by
  rw [← fileName_name h path count, fileName, fileName, (isName_name path taken count).basename_join,
    Path.basename_of_not_mem (isName_name path taken count).not_mem]

namespace World

theorem now_of_goes {α : Type} {d : Routine α} {a : α} {test : Call → World → Bool} {w w' : World}
    (h : d.Goes (Host.steps host test) w a w') : w'.now = w.now :=
  h.keeps_of_host fun c w => (surroundings_host c w).2

end World

namespace BackupStore

variable {w w' : World} {store store' : BackupStore}

theorem folder_of_goes_trim {step : Step Answer World} {paths : List Text} {r : Except Fault Unit}
    (h : ((trim paths).run.run store).Goes step w (r, store') w') :
    store'.folder = store.folder := by
  cases hlimit : store.limit with
  | some limit => rw [(eq_of_goes_trim hlimit h).2]
  | none =>
    rw [trim, goes_get_bind_work_iff] at h
    simp only [hlimit] at h
    rw [goes_modify_bind_work_iff] at h
    obtain ⟨⟨-, rfl⟩, -⟩ := goes_throw_work_iff.mp h
    rfl

theorem folder_of_goes_backups {step : Step Answer World} [World.Tame step]
    {r : Except Fault (List Text)} (h : (backups.run.run store).Goes step w (r, store') w') :
    store'.folder = store.folder := by
  cases hknown : store.known with
  | some known => rw [(eq_of_goes_backups_of_known hknown h).2.1]
  | none =>
    obtain ⟨u, found, -, htrim, -⟩ := exists_trim_of_goes_backups hknown h
    exact folder_of_goes_trim htrim

variable {test : Call → World → Bool}

/-- A backup is named after its file, what the clock shows, and a number. -/
theorem exists_name_of_goes_create {folder path content ref : Text}
    (h : (create folder path content).run.Goes (Host.steps World.host test) w (.ok ref) w') :
    ∃ count, ref = Path.join folder (Backup.name path w.now count) := by
  rcases goes_bind_run_iff.mp h with ⟨e, -, heq⟩ | ⟨⟨⟩, u, hmake, h⟩
  · cases heq
  have hnow := World.now_of_goes hmake
  obtain ⟨taken, u', htaken, h⟩ := goes_lift_bind_run_iff.mp h
  obtain ⟨names, v, -, h⟩ := goes_lift_bind_run_iff.mp h
  obtain ⟨target, x, htarget, h⟩ := goes_lift_bind_run_iff.mp h
  have hshown : w.now = taken := hnow.symm.trans (congrArg Prod.fst (goes_question_iff.mp htaken).2)
  rcases goes_bind_run_iff.mp h with ⟨e, -, heq⟩ | ⟨⟨⟩, y, -, h⟩
  · cases heq
  obtain rfl := Except.ok.inj (goes_pure_run_iff.mp h).1
  rw [← hshown] at htarget
  let place (count : Nat) := Path.join folder (Backup.name path w.now count)
  obtain ⟨count, -, rfl⟩ := (mem_places_iff place).mp (of_goes_firstFree htarget).2.1
  exact ⟨count, rfl⟩

theorem exists_name_of_goes_backup {path content ref : Text}
    (h : ((backup path content).run.run store).Goes (Host.steps World.host test) w
      (.ok (some ref), store') w') :
    ∃ count, ref = Path.join store.folder (Backup.name path w.now count) := by
  rcases backup_stages h with ⟨e, -, heq⟩ | ⟨known, loaded, u, hload, hrest⟩
  · cases heq
  rcases hrest with ⟨e, v, -, -, hnone, -⟩ | ⟨target, v, found, x, hcreate, -, -, heq⟩
  · cases hnone
  obtain rfl : ref = target := by
    cases found with
    | error => cases heq
    | ok => exact Option.some.inj (Except.ok.inj heq)
  obtain ⟨count, rfl⟩ := exists_name_of_goes_create hcreate
  rw [folder_of_goes_backups hload, World.now_of_goes hload]
  exact ⟨count, rfl⟩

theorem granted_backups {limit : Int} {r : Except Fault (List Text)}
    (hlimit : store.limit = some limit) (hpositive : 0 ≤ limit)
    (h : (backups.run.run store).Goes (Host.steps World.host test) w (r, store') w') :
    (∃ known, r = .ok known) ∧ store'.limit = some limit := by
  cases hknown : store.known with
  | some known =>
    obtain ⟨rfl, rfl, -⟩ := eq_of_goes_backups_of_known hknown h
    exact ⟨⟨known, rfl⟩, hlimit⟩
  | none =>
    obtain ⟨rfl, rfl⟩ := eq_of_goes_first_backups hknown hlimit h
    rw [if_neg (by omega)]
    exact ⟨⟨_, rfl⟩, hlimit⟩

/-- A machine that grants changes takes a backup for any store that may keep some number of them. -/
theorem exists_ref_of_granted {limit : Int} {path content : Text} {r : Except Fault (Option Text)}
    (hlimit : store.limit = some limit) (hpositive : 0 ≤ limit)
    (h : ((backup path content).run.run store).Goes (Host.steps World.host World.grants) w
      (r, store') w') : ∃ ref, r = .ok (some ref) := by
  rcases backup_stages h with ⟨e, hload, -⟩ | ⟨known, loaded, u, hload, hrest⟩
  · obtain ⟨⟨known, heq⟩, -⟩ := granted_backups hlimit hpositive hload
    cases heq
  rcases hrest with ⟨e, v, hcreate, -⟩ | ⟨target, v, found, x, -, htrim, -, rfl⟩
  · obtain ⟨target, heq⟩ := granted_create (World.goes_turns hcreate)
    cases heq
  · obtain ⟨rfl, -⟩ := eq_of_goes_trim (granted_backups hlimit hpositive hload).2 htrim
    rw [if_neg (by omega)]
    exact ⟨target, rfl⟩

/-- Whatever a store holds and whatever stands in its folder, a backup that is taken is named after
the file and a number that makes the name free, and the file's name is read back from it. No limit
from zero up keeps a machine that grants changes from taking one. -/
theorem fileName_of_backup {w : World} (hclock : w.now.FitsStamp) (store : BackupStore)
    (path content : Text) :
    let work := (backup path content).run.run store
    let taken := Dialogue.run World.host work w
    (∀ ref, taken.1.1 = .ok (some ref) →
      (∃ count, ref = Path.join store.folder (Backup.name path w.now count)) ∧
        Backup.fileName ref = Path.basename path) ∧
    ∀ limit, store.limit = some limit → 0 ≤ limit →
      throughout World.host World.grants work w = true → ∃ ref, taken.1.1 = .ok (some ref) := by
  intro work taken
  refine ⟨fun ref href => ?_, fun limit hlimit hpositive hgranted => ?_⟩
  · have hgoes : work.Goes World.steps w (taken.1.1, taken.1.2) taken.2.1 :=
      goes_run World.host work w
    rw [href] at hgoes
    obtain ⟨count, rfl⟩ := exists_name_of_goes_backup hgoes
    exact ⟨⟨count, rfl⟩, Backup.fileName_join hclock _ _ _⟩
  · have hgoes : work.Goes (Host.steps World.host World.grants) w (taken.1.1, taken.1.2)
        taken.2.1 := goes_steps_iff.mpr ⟨rfl, rfl, hgranted⟩
    exact exists_ref_of_granted hlimit hpositive hgoes

/-- The second backup of one instant of a file whose name looks like that of a backup. -/
theorem fileName_of_backup_of_backup :
    let name : Text := "a\n.2024-01-02T03-04-05-000006Z-1.bak"
    let ref : Text := "/b/a\n.2024-01-02T03-04-05-000006Z-1.bak.2024-01-02T03-04-05-000006Z-1.bak"
    let work (s : BackupStore) := (backup ("/ws/".toList ++ name) "1").run.run s
    let first := Dialogue.run World.host (work narrow) stopped
    let second := Dialogue.run World.host (work first.1.2) first.2.1
    second.1.1 = .ok (some ref) ∧ Backup.fileName ref = name := by
  intro name ref work first second
  have hclock : first.2.1.now.FitsStamp := by
    refine ⟨?_, ?_, ?_, ?_, ?_, ?_, ?_, ?_⟩ <;> decide +kernel
  have hsecond : second.1.1 = .ok (some ref) := eq_ok_of_toOption (by decide +kernel)
  obtain ⟨hnamed, -⟩ := fileName_of_backup hclock first.1.2 ("/ws/".toList ++ name) "1"
  obtain ⟨-, hname⟩ := hnamed ref hsecond
  have hbase : Path.basename ("/ws/".toList ++ name) = name := by decide +kernel
  exact ⟨hsecond, hname.trans hbase⟩

end BackupStore

end CodeGraft
