import CodeGraft.Proofs.StoredBackups
import Mathlib.Data.Char
import Mathlib.Data.List.Lex
import Mathlib.Data.Prod.Lex

/-!
# Series of backups

A store takes one backup after another. Each is put where nothing stood, and in front of the list of
backups; the list is cut to the limit, and the files that are cut off are the only ones that go. It
does not matter what the clock shows and what else fails, as long as files can be removed: a backup
that is not taken leaves the list and all files as they were.
-/

namespace CodeGraft

open Text Dialogue Disk

namespace Disk

variable {d d' d'' : Disk}

theorem node?_of_remove {path : Text} (h : d.remove path = .ok d') (place : Place) :
    d'.node? place = if place = destination d.current path then none else d.node? place := by
  obtain ⟨found, old, modified, hplace, hnode, rfl⟩ := exists_of_remove h
  have hne : found ≠ [] := by
    rintro rfl
    cases hnode
  rw [node?_erase d place hne, eq_of_placeOf hplace]

/-- Some files have gone, and nothing else has changed. -/
structure Cleared (paths : List Text) (d d' : Disk) : Prop where
  current_eq : d'.current = d.current
  folders : ∀ place, d.node? place = some .folder → d'.node? place = some .folder
  node?_eq : ∀ place, d'.node? place =
    if place ∈ paths.map (destination d.current) then none else d.node? place

namespace Cleared

variable {paths : List Text}

theorem refl (d : Disk) : Cleared [] d d := ⟨rfl, fun _ h => h, fun place => by simp⟩

theorem cons {path : Text} (h : d.remove path = .ok d') (h' : Cleared paths d' d'') :
    Cleared (path :: paths) d d'' := by
  have hevolves := evolves_of_remove h
  refine ⟨h'.current_eq.trans hevolves.current_eq,
    fun place hplace => h'.folders place (hevolves.folders place hplace), fun place => ?_⟩
  rw [h'.node?_eq, node?_of_remove h, hevolves.current_eq, List.map_cons]
  by_cases hfirst : place = destination d.current path
  · simp [hfirst]
  · simp [hfirst]

theorem reverse (h : Cleared paths.reverse d d') : Cleared paths d d' :=
  ⟨h.current_eq, h.folders, fun place => by simpa using h.node?_eq place⟩

theorem gone (h : Cleared paths d d') : ∀ path ∈ paths,
    d'.node? (destination d.current path) = none := fun path hpath => by
  rw [h.node?_eq, if_pos (List.mem_map_of_mem hpath)]

theorem evolves (h : Cleared paths d d') : Evolves (· ∈ paths.map (destination d.current)) d d' :=
  ⟨h.current_eq, h.folders, fun place hplace => .inl (by rw [h.node?_eq, if_neg hplace])⟩

end Cleared

end Disk

namespace World

variable {w w' : World}

/-- The answers of a machine that may falter, but never fails to remove a file. -/
def Clears : Step Answer World
  | .remove path, w, r, w' => Falters (.remove path) w r w' ∧ r = .ok ()
  | c, w, r, w' => Falters c w r w'

instance : Tame Clears := ⟨by
  intro c w w' r h
  cases c with
  | remove => exact h.1
  | _ => exact h⟩

theorem Falters.of_remove {path : Text} (h : Falters (.remove path) w (.ok ()) w') :
    w.disk.remove path = .ok w'.disk := by
  cases h with
  | answers now h =>
    change { w with now }.change path (w.disk.remove path) = (.ok (), { w' with now }) at h
    obtain ⟨-, disk, hdisk, hw⟩ := change_eq_ok_iff.mp h
    obtain rfl : w'.disk = disk := congrArg World.disk hw
    exact hdisk

theorem clears_of_grants {c : Call} {r : Answer c}
    (h : Host.steps host grants c w r w') : Clears c w r w' := by
  have hfalters := Tame.falters h
  cases c with
  | remove path =>
    refine ⟨hfalters, ?_⟩
    obtain ⟨hgrants, hhost⟩ := h
    simp only [grants, hhost] at hgrants
    cases r with
    | ok => rfl
    | error e => cases hgrants
  | _ => exact hfalters

theorem goes_clears {α : Type} {d : Routine α} (h : throughout host grants d w = true) :
    d.Goes Clears w (Dialogue.run host d w).1 (Dialogue.run host d w).2.1 :=
  (goes_steps_iff.mpr ⟨rfl, rfl, h⟩).mono fun _ _ _ _ => clears_of_grants

end World

theorem Instant.key_injective : Function.Injective Instant.key := by
  rintro ⟨⟩ ⟨⟩ h
  simpa [Instant.key] using h

namespace BackupStore

variable {w w' : World} {store store' : BackupStore} {limit : Int}

theorem cleared_of_goes_removeEach {paths : List Text} {a : Unit}
    (h : (removeEach paths).Goes World.Clears w a w') : Cleared paths w.disk w'.disk := by
  induction paths generalizing w with
  | nil =>
    obtain ⟨-, rfl⟩ := goes_pure_iff.mp h
    exact .refl _
  | cons path paths ih =>
    obtain ⟨r, u, hremove, hrest⟩ := goes_bind_iff.mp h
    obtain ⟨hfalters, rfl⟩ := goes_question_iff.mp hremove
    exact .cons hfalters.of_remove (ih hrest)

theorem cleared_of_goes_trim {paths : List Text} {r : Except Fault Unit}
    (hlimit : store.limit = some limit)
    (h : ((trim paths).run.run store).Goes World.Clears w (r, store') w') :
    Cleared (paths.drop limit.toNat) w.disk w'.disk := by
  rw [trim, goes_get_bind_work_iff] at h
  simp only [hlimit] at h
  rw [goes_modify_bind_work_iff] at h
  obtain ⟨⟨⟩, u, hremove, h⟩ := goes_lift_bind_work_iff.mp h
  have hcleared := (cleared_of_goes_removeEach hremove).reverse
  split at h
  · obtain ⟨-, rfl⟩ := goes_throw_work_iff.mp h
    exact hcleared
  · obtain ⟨-, rfl⟩ := goes_pure_work_iff.mp h
    exact hcleared

theorem notNewer_iff (a b : Text × Instant) :
    notNewer a b = true ↔ toLex (a.2.key, a.1) ≤ toLex (b.2.key, b.1) := by
  rw [Prod.Lex.toLex_le_toLex]
  unfold notNewer
  split
  next heq =>
    have hname : ¬ b.1 < a.1 ↔ a.1 ≤ b.1 := not_lt
    rw [Bool.not_eq_true', decide_eq_false_iff_not, hname]
    simp [heq]
  next hne =>
    have hkey : a.2.key ≠ b.2.key := fun heq => hne (Instant.key_injective heq)
    have hinstant : ¬ b.2.key < a.2.key ↔ a.2.key ≤ b.2.key := not_lt
    rw [Instant.le, Bool.not_eq_true', decide_eq_false_iff_not, hinstant, le_iff_lt_or_eq]
    simp [hkey]

/-- These are the backups among the files of a folder, the newest first. -/
def IsNewestFirst (folder : Text) (files : List (Text × Instant)) (paths : List Text) : Prop :=
  ∃ sorted : List (Text × Instant), sorted.Perm (files.filter fun f => endsWith f.1 ".bak") ∧
    sorted.Pairwise (fun a b => notNewer b a = true) ∧
    paths = sorted.map fun f => Path.join folder f.1

theorem isNewestFirst_newestFirst (folder : Text) (files : List (Text × Instant)) :
    IsNewestFirst folder files (newestFirst folder files) := by
  refine ⟨_, List.mergeSort_perm _ _, List.pairwise_mergeSort ?_ ?_ _, rfl⟩
  · intro a b c hab hbc
    rw [notNewer_iff] at hab hbc ⊢
    exact hbc.trans hab
  · intro a b
    rw [Bool.or_eq_true, notNewer_iff, notNewer_iff]
    exact le_total _ _

/-- The backups that a store gives: those that it knows, or else the newest in its folder. -/
def listing (store : BackupStore) (d : Disk) (number : Nat) : List Text :=
  store.known.getD ((newestFirst store.folder (d.files store.folder)).take number)

/-- The files that go when a store looks into its folder. A store that has done so lets none go. -/
def surplus (store : BackupStore) (d : Disk) (number : Nat) : List Text :=
  if store.known.isSome then [] else (newestFirst store.folder (d.files store.folder)).drop number

theorem listing_append_surplus (h : store.known = none) (d : Disk) (number : Nat) :
    store.listing d number ++ store.surplus d number =
      newestFirst store.folder (d.files store.folder) := by
  simp [listing, surplus, h]

theorem eq_listing_of_goes_backups {step : Step Answer World} [World.Tame step]
    {names : List Text} {r : Except Fault (List Text)} (hfinds : store.Finds w.disk names)
    (hlimit : store.limit = some limit) (hpositive : 0 ≤ limit)
    (h : (backups.run.run store).Goes step w (r, store') w') :
    r = .ok (store.listing w.disk limit.toNat) ∧
      store' = { store with known := some (store.listing w.disk limit.toNat) } := by
  rcases hfinds.known with hknown | ⟨hknown, hnames⟩
  · obtain ⟨rfl, rfl, -⟩ := eq_of_goes_backups_of_known hknown h
    rw [listing, hknown, Option.getD_some, ← hknown]
    exact ⟨rfl, rfl⟩
  · obtain ⟨u, found, hu, htrim, rfl⟩ := exists_trim_of_goes_backups hknown h
    have hlisted := hfinds.listed
    rw [hnames] at htrim
    rw [← hu] at hlisted
    obtain ⟨rfl, rfl, -⟩ := of_goes_trim hlimit hpositive hlisted htrim
    rw [listing, hknown, Option.getD_none, hnames, ← List.map_take]
    exact ⟨rfl, rfl⟩

theorem cleared_of_goes_backups {r : Except Fault (List Text)} (hlimit : store.limit = some limit)
    (h : (backups.run.run store).Goes World.Clears w (r, store') w') :
    Cleared (store.surplus w.disk limit.toNat) w.disk w'.disk := by
  cases hknown : store.known with
  | some known =>
    obtain ⟨-, -, rfl⟩ := eq_of_goes_backups_of_known hknown h
    rw [surplus, hknown]
    exact .refl _
  | none =>
    obtain ⟨u, found, hu, htrim, -⟩ := exists_trim_of_goes_backups hknown h
    rw [← hu] at htrim ⊢
    rw [surplus, hknown]
    exact cleared_of_goes_trim hlimit htrim

def Lists (store : BackupStore) (w : World) (paths : List Text) : Prop :=
  (Dialogue.run World.host (backups.run.run store) w).1.1 = .ok paths

theorem lists_listing {names : List Text} (hfinds : store.Finds w.disk names)
    (hlimit : store.limit = some limit) (hpositive : 0 ≤ limit) :
    store.Lists w (store.listing w.disk limit.toNat) := by
  have hgoes := goes_run World.host (backups.run.run store) w
  exact (eq_listing_of_goes_backups hfinds hlimit hpositive hgoes).1

theorem lists_of_known {paths : List Text} (h : store.known = some paths) (w : World) :
    store.Lists w paths := by
  have hgoes := goes_run World.host (backups.run.run store) w
  exact (eq_of_goes_backups_of_known h hgoes).1

/-- A backup has been taken: where nothing stood there is a file of the content, some files have
gone, and nothing else has changed but for new folders. -/
structure Stored (ref content : Text) (dropped : List Text) (d d' : Disk) : Prop where
  fresh : d.node? (destination d.current ref) = none
  read : d'.read ref = .ok (Utf8.encode content)
  gone : ∀ path ∈ dropped, d'.node? (destination d.current path) = none
  evolves : Evolves (fun place => place = destination d.current ref ∨
    place ∈ dropped.map (destination d.current)) d d'

theorem Begun.fresh {d d' : Disk} {folder name : Text} {part : Bytes}
    (h : Begun d d' folder name part) :
    d.node? (destination d.current folder ++ [name]) = none := by
  obtain ⟨mid, now, hmade, hfree, -⟩ := h.goes
  rw [hmade.current_eq] at hfree
  rcases hmade.others (destination d.current folder ++ [name]) id with heq | ⟨hnone, -⟩
  · rw [← heq, hfree]
  · exact hnone

theorem stored_of_begun (loaded : BackupStore) {kept : List Text} {name content : Text}
    {u v : World} {r : Except Fault Unit} (hlimit : loaded.limit = some limit)
    (hpositive : 1 ≤ limit) (hlisted : Listed u.disk loaded.folder kept)
    (hproper : Path.holdsNull (Path.join loaded.folder name) = false)
    (hbegun : Begun u.disk v.disk loaded.folder name (Utf8.encode content))
    (h : ((trim (Path.join loaded.folder name :: kept.map (Path.join loaded.folder))).run.run
      loaded).Goes World.Clears v (r, store') w') :
    r = .ok () ∧
      store'.known = some ((Path.join loaded.folder name ::
        kept.map (Path.join loaded.folder)).take limit.toNat) ∧
      Stored (Path.join loaded.folder name) content
        ((Path.join loaded.folder name :: kept.map (Path.join loaded.folder)).drop limit.toNat)
        u.disk w'.disk := by
  obtain ⟨hr, htaken⟩ := taken_of_begun loaded hlimit (by omega) hlisted hproper hbegun h
  have hcurrent := hbegun.evolves.current_eq
  have hcleared := cleared_of_goes_trim hlimit h
  have hplace := hbegun.isName.destination_join u.disk.current loaded.folder
  rw [← List.map_cons, ← List.map_take]
  refine ⟨hr, by rw [htaken.store_eq], by rw [hplace, hbegun.fresh], htaken.read (by omega), ?_, ?_⟩
  · rw [← hcurrent]
    exact hcleared.gone
  · refine (hbegun.evolves.mono fun place hfirst => .inl (hfirst.trans hplace.symm)).trans ?_
    rw [← hcurrent]
    exact hcleared.evolves.mono fun place => .inr

/-- A backup that is not taken leaves alone whatever stands. -/
theorem evolves_of_goes_create {step : Step Answer World} [World.Tame step]
    {folder path content : Text} {e : Fault}
    (h : (create folder path content).run.Goes step w (.error e) w') :
    Evolves (fun place => w.disk.node? place = none) w.disk w'.disk := by
  rcases create_cases h with ⟨-, hevolves⟩ | ⟨name, part, hbegun, -⟩
  · exact hevolves.mono fun _ => False.elim
  · refine hbegun.evolves.mono ?_
    rintro place rfl
    exact hbegun.fresh

/-- What one call does. First the store looks into its folder, unless it has done so before; that
leaves the disk `loaded`. -/
theorem backup_spec {names : List Text} {path content : Text} {r : Except Fault (Option Text)}
    (hfinds : store.Finds w.disk names) (hlimit : store.limit = some limit) (hpositive : 1 ≤ limit)
    (h : ((backup path content).run.run store).Goes World.Clears w (r, store') w') :
    ∃ loaded, Cleared (store.surplus w.disk limit.toNat) w.disk loaded ∧
      ((r.toOption.join = none ∧ store'.known = some (store.listing w.disk limit.toNat) ∧
          Evolves (fun place => loaded.node? place = none) loaded w'.disk) ∨
        ∃ ref, r = .ok (some ref) ∧
          store'.known = some ((ref :: store.listing w.disk limit.toNat).take limit.toNat) ∧
          Stored ref content ((ref :: store.listing w.disk limit.toNat).drop limit.toNat) loaded
            w'.disk) := by
  rcases backup_stages h with ⟨e, hload, -⟩ | ⟨known, store₁, u, hload, hrest⟩
  · cases (eq_listing_of_goes_backups hfinds hlimit (by omega) hload).1
  obtain ⟨hknown, hloaded⟩ := eq_listing_of_goes_backups hfinds hlimit (by omega) hload
  obtain ⟨kept, -, heq, -, hlisted, -⟩ := of_goes_backups hfinds hlimit (by omega) hload
  have hkept : store.listing w.disk limit.toNat = kept.map (Path.join store.folder) :=
    Except.ok.inj (hknown.symm.trans heq)
  obtain rfl := Except.ok.inj hknown
  refine ⟨u.disk, cleared_of_goes_backups hlimit hload, ?_⟩
  subst hloaded
  rcases hrest with ⟨e, v, hcreate, -, hr, rfl, hdisk⟩ |
    ⟨target, v, found, x, hcreate, htrim, hdisk, rfl⟩
  · rw [hdisk]
    exact .inl ⟨hr, rfl, evolves_of_goes_create hcreate⟩
  · obtain ⟨⟨e, heq⟩, -⟩ | ⟨name, part, hbegun, ⟨e, heq⟩ | ⟨heq, rfl, hproper⟩⟩ :=
      create_cases hcreate
    · cases heq
    · cases heq
    obtain rfl := Except.ok.inj heq
    rw [hkept] at htrim ⊢
    let looked : BackupStore := { store with known := some (kept.map (Path.join store.folder)) }
    obtain ⟨rfl, hknown', hstored⟩ :=
      stored_of_begun looked hlimit hpositive hlisted hproper hbegun htrim
    rw [hdisk]
    exact .inr ⟨_, rfl, hknown', hstored⟩

/-! ### Series of backups -/

/-- What a store and a machine have come to by calls that ask for backups, one after another. -/
inductive Series (first : BackupStore) (begun : World) : BackupStore → World → Prop
  | start : Series first begun first begun
  | call {store store' : BackupStore} {w w' : World} {path content : Text}
      {r : Except Fault (Option Text)} (h : Series first begun store w)
      (hgoes : ((backup path content).run.run store).Goes World.Clears w (r, store') w') :
      Series first begun store' w'

theorem Series.exists_finds {first : BackupStore} {begun : World} (hsound : begun.disk.Sound)
    (hknown : first.known = none) (hlimit : first.limit = some limit) (hpositive : 1 ≤ limit)
    (h : Series first begun store w) :
    store.limit = some limit ∧ ∃ names, store.Finds w.disk names := by
  induction h with
  | start => exact ⟨hlimit, BackupStore.exists_finds hsound hknown⟩
  | call _ hgoes ih =>
    obtain ⟨hlimit, names, hfinds⟩ := ih
    obtain ⟨kept, -, ⟨_, _, _, -, -, huntaken⟩ | ⟨name, -, htaken⟩⟩ :=
      backup_cases hfinds hlimit (by omega) hgoes
    · rw [huntaken.store_eq]
      exact ⟨hlimit, kept, huntaken.listed, .inl rfl⟩
    · rw [htaken.store_eq]
      exact ⟨hlimit, _, htaken.listed, .inl rfl⟩

/-- In a series of calls, each that gives a reference has put the content where nothing stood. The
list of backups is then that reference and the list before, cut to the limit; what is cut off has
gone, and nothing else has changed. Any other call leaves the list and all files as they were. The
first call looks into the folder before that: the newest of the backups there are the list that it
begins with, and the others go. -/
theorem backup_in_series {first : BackupStore} {begun : World} {path content : Text}
    {r : Except Fault (Option Text)} (hsound : begun.disk.Sound) (hknown : first.known = none)
    (hlimit : first.limit = some limit) (hpositive : 1 ≤ limit)
    (hseries : Series first begun store w)
    (h : ((backup path content).run.run store).Goes World.Clears w (r, store') w') :
    ∃ previous dropped loaded, store.Lists w previous ∧
      (store.known = none ∧ previous.length = min limit.toNat (previous ++ dropped).length ∧
          IsNewestFirst store.folder (w.disk.files store.folder) (previous ++ dropped) ∨
        store.known.isSome ∧ dropped = []) ∧
      Cleared dropped w.disk loaded ∧
      (∀ ref, r = .ok (some ref) →
        store'.Lists w' ((ref :: previous).take limit.toNat) ∧
        Stored ref content ((ref :: previous).drop limit.toNat) loaded w'.disk) ∧
      (r.toOption.join = none →
        store'.Lists w' previous ∧
        Evolves (fun place => loaded.node? place = none) loaded w'.disk) := by
  obtain ⟨hlimit, names, hfinds⟩ := hseries.exists_finds hsound hknown hlimit hpositive
  obtain ⟨loaded, hcleared, hend⟩ := backup_spec hfinds hlimit hpositive h
  refine ⟨store.listing w.disk limit.toNat, store.surplus w.disk limit.toNat, loaded,
    lists_listing hfinds hlimit (by omega), ?_, hcleared, ?_, ?_⟩
  · cases hlooked : store.known with
    | some known => exact .inr ⟨rfl, by simp [surplus, hlooked]⟩
    | none =>
      refine .inl ⟨rfl, ?_, ?_⟩
      · simp [listing, surplus, hlooked]
      · rw [listing_append_surplus hlooked]
        exact isNewestFirst_newestFirst _ _
  · rintro ref rfl
    obtain ⟨hnone, -⟩ | ⟨ref', heq, hknown', hstored⟩ := hend
    · cases hnone
    · cases heq
      exact ⟨lists_of_known hknown' w', hstored⟩
  · intro hnone
    obtain ⟨-, hknown', hevolves⟩ | ⟨ref, rfl, -⟩ := hend
    · exact ⟨lists_of_known hknown' w', hevolves⟩
    · cases hnone

def narrow : BackupStore := ⟨"/b", some 1, none⟩

/-- A machine whose clock stands still, with one backup. -/
def stopped : World where
  disk := { nodes := [(["b"], .folder), (["b", "old.bak"], .file [] ⟨2025, 1, 2, 3, 4, 5, 6⟩)] }
  now := ⟨2024, 1, 2, 3, 4, 5, 6⟩

def after (content : Text) (s : BackupStore × World) : BackupStore × World :=
  let done := Dialogue.run World.host ((backup "/ws/a.js" content).run.run s.1) s.2
  (done.1.2, done.2.1)

theorem series_stopped :
    Series narrow stopped (after "2" (after "1" (narrow, stopped))).1
      (after "2" (after "1" (narrow, stopped))).2 := by
  have hfirst : ((backup "/ws/a.js" "1").run.run narrow).Goes World.Clears stopped _ _ :=
    World.goes_clears (by decide +kernel)
  have hsecond : ((backup "/ws/a.js" "2").run.run (after "1" (narrow, stopped)).1).Goes
      World.Clears (after "1" (narrow, stopped)).2 _ _ := World.goes_clears (by decide +kernel)
  exact .call (.call .start hfirst) hsecond

/-- The third backup of one instant has the name of the first, which has gone by then. -/
theorem backup_in_series_of_one_instant :
    let ref : Text := "/b/a.js.2024-01-02T03-04-05-000006Z.bak"
    let second : Text := "/b/a.js.2024-01-02T03-04-05-000006Z-1.bak"
    let s := after "2" (after "1" (narrow, stopped))
    (after "1" (narrow, stopped)).1.known = some [ref] ∧ s.1.known = some [second] ∧
      (after "3" s).1.Lists (after "3" s).2 [ref] ∧
      ∃ loaded, Cleared [] s.2.disk loaded ∧
        Stored ref "3" [second] loaded (after "3" s).2.disk := by
  intro ref second s
  have hfirst : (after "1" (narrow, stopped)).1.known = some [ref] := by decide +kernel
  have hsecond : s.1.known = some [second] := by decide +kernel
  have hthird : ((backup "/ws/a.js" "3").run.run s.1).Goes World.Clears s.2 _ _ :=
    World.goes_clears (by decide +kernel)
  have hsound : stopped.disk.Sound := ⟨by decide +kernel, by decide +kernel⟩
  obtain ⟨previous, dropped, loaded, hprevious, hlook, hcleared, hstored, -⟩ :=
    backup_in_series hsound rfl rfl (by decide) series_stopped hthird
  obtain rfl : previous = [second] :=
    Except.ok.inj (hprevious.symm.trans (lists_of_known hsecond s.2))
  obtain rfl : dropped = [] := by
    obtain ⟨hnone, -⟩ | ⟨-, hdropped⟩ := hlook
    · rw [hsecond] at hnone
      cases hnone
    · exact hdropped
  obtain ⟨hlists, hchange⟩ := hstored ref (eq_ok_of_toOption (by decide +kernel))
  exact ⟨hfirst, hsecond, hlists, loaded, hcleared, hchange⟩

end BackupStore

end CodeGraft
