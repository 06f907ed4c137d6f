import CodeGraft.Backup.Store
import CodeGraft.Proofs.Listings
import CodeGraft.Proofs.Touches
import Mathlib.Data.List.TakeWhile

/-!
# Backups in a folder

Backups are files of their own names in one folder. Taking one touches nothing but such files: the
new one, whose name was free, and the oldest ones that go beyond the limit.
-/

namespace CodeGraft

open Text Dialogue Disk

theorem Instant.not_mem_padded {c : Char} (h : c.isDigit = false) (width n : Nat) :
    c ∉ padded width n := by
  have hzero : c ≠ '0' := by
    rintro rfl
    cases h
  simp [padded, not_mem_ofNat h, hzero]

theorem Instant.slash_not_mem_stamp (t : Instant) : '/' ∉ t.stamp := by
  have hpadded : ∀ width n, '/' ∉ padded width n := not_mem_padded rfl
  have hyear := not_mem_ofNat (c := '/') rfl t.year
  simp [stamp, glue, hpadded, hyear]

theorem Path.slash_not_mem_basename (path : Text) : '/' ∉ Path.basename path := by
  intro hmem
  rw [Path.basename, List.mem_reverse] at hmem
  simpa using List.mem_takeWhile_imp hmem

namespace Backup

theorem isName_name (path : Text) (taken : Instant) (count : Nat) : IsName (name path taken count) := by
  have hlength : 4 ≤ (name path taken count).length := by
    simp [name, glue]
    omega
  have hslash : '/' ∉ name path taken count := by
    have hnumber := not_mem_ofNat (c := '/') rfl count
    simp only [name, glue, List.flatten_cons, List.mem_append, not_or]
    refine ⟨Path.slash_not_mem_basename path, by decide, taken.slash_not_mem_stamp, ?_, by decide⟩
    split
    · simp
    · simpa using hnumber
  refine ⟨?_, hslash, ?_, ?_⟩
  all_goals
    intro heq
    rw [heq] at hlength
    simp at hlength

theorem endsWith_name (path : Text) (taken : Instant) (count : Nat) :
    endsWith (name path taken count) ".bak" = true := by
  rw [endsWith, List.isSuffixOf_iff_suffix]
  exact ⟨glue [Path.basename path, ".", taken.stamp, if count = 0 then [] else '-' :: ofNat count],
    by simp [name, glue]⟩

theorem name_injective (path : Text) (taken : Instant) {m n : Nat}
    (h : name path taken m = name path taken n) : m = n := by
  simp only [name, glue, List.flatten_cons, List.append_cancel_left_eq] at h
  have hnumber := List.append_cancel_right h
  split at hnumber <;> split at hnumber <;> simp_all
  exact ofNat_injective hnumber

end Backup

/-! ### Files of a folder -/

def Backup.IsPlaceIn (folder place : Place) : Prop :=
  ∃ name, endsWith name ".bak" = true ∧ place = folder ++ [name]

/-- The place of a backup in a folder that is none of those with the given names. -/
def Backup.IsOther (folder : Place) (names : List Text) (place : Place) : Prop :=
  ∃ name, endsWith name ".bak" = true ∧ name ∉ names ∧ place = folder ++ [name]

theorem Backup.IsOther.isPlaceIn {folder place : Place} {names : List Text}
    (h : IsOther folder names place) : IsPlaceIn folder place := by
  obtain ⟨name, hend, -, rfl⟩ := h
  exact ⟨name, hend, rfl⟩

theorem Backup.IsOther.subset {folder place : Place} {names names' : List Text}
    (h : IsOther folder names place) (hsub : names' ⊆ names) : IsOther folder names' place := by
  obtain ⟨name, hend, hname, rfl⟩ := h
  exact ⟨name, hend, fun hmem => hname (hsub hmem), rfl⟩

namespace BackupStore

/-- Backups of some names in a folder, each once. -/
structure Listed (d : Disk) (folder : Text) (names : List Text) : Prop where
  nodup : names.Nodup
  proper : ∀ name ∈ names, IsName name ∧ endsWith name ".bak" = true
  stands : ∀ name ∈ names, ∃ content modified,
    d.node? (destination d.current folder ++ [name]) = some (.file content modified)

theorem Listed.sublist {d : Disk} {folder : Text} {names names' : List Text}
    (h : Listed d folder names) (hsub : names'.Sublist names) : Listed d folder names' :=
  ⟨h.nodup.sublist hsub, fun name hname => h.proper name (hsub.mem hname),
    fun name hname => h.stands name (hsub.mem hname)⟩

theorem Listed.of_evolves {touched : Place → Prop} {d d' : Disk} {folder : Text}
    {names : List Text} (h : Listed d folder names) (hevolves : Evolves touched d d')
    (hfree : ∀ name ∈ names, ¬ touched (destination d.current folder ++ [name])) :
    Listed d' folder names := by
  refine ⟨h.nodup, h.proper, fun name hname => ?_⟩
  obtain ⟨content, modified, hfile⟩ := h.stands name hname
  rw [hevolves.current_eq]
  exact ⟨content, modified, hevolves.file (hfree name hname) hfile⟩

theorem exists_listed {d : Disk} (hsound : d.Sound) (folder : Text) :
    ∃ names, newestFirst folder (d.files folder) = names.map (Path.join folder) ∧
      Listed d folder names := by
  let sorted := ((d.files folder).filter fun f => endsWith f.1 ".bak").mergeSort
    fun a b => notNewer b a
  have hmem : ∀ {f}, f ∈ sorted ↔ f ∈ d.files folder ∧ endsWith f.1 ".bak" = true := by
    intro f
    rw [(List.mergeSort_perm _ _).mem_iff, List.mem_filter]
  have hfiltered : (((d.files folder).filter fun f => endsWith f.1 ".bak").map Prod.fst).Nodup :=
    (nodup_files hsound folder).sublist (List.filter_sublist.map _)
  have hnodup : (sorted.map Prod.fst).Nodup :=
    ((List.mergeSort_perm _ _).map Prod.fst).nodup_iff.mpr hfiltered
  refine ⟨sorted.map Prod.fst, by simp [newestFirst, sorted], hnodup, ?_, ?_⟩
  · intro name hname
    obtain ⟨⟨_, modified⟩, hfile, rfl⟩ := List.mem_map.mp hname
    obtain ⟨hfile, hend⟩ := hmem.mp hfile
    exact ⟨(exists_of_mem_files hsound hfile).1, hend⟩
  · intro name hname
    obtain ⟨⟨_, modified⟩, hfile, rfl⟩ := List.mem_map.mp hname
    obtain ⟨-, content, hnode⟩ := exists_of_mem_files hsound (hmem.mp hfile).1
    exact ⟨content, modified, hnode⟩

/-- The backups that a store knows, or finds when it looks into its folder. -/
structure Finds (store : BackupStore) (d : Disk) (names : List Text) : Prop where
  listed : Listed d store.folder names
  known : store.known = some (names.map (Path.join store.folder)) ∨
    store.known = none ∧
      newestFirst store.folder (d.files store.folder) = names.map (Path.join store.folder)

variable {step : Step Answer World} [World.Tame step] {w w' : World} {store store' : BackupStore}

omit [World.Tame step] in
theorem touches_removeEach {current : Place} {touched : Place → Prop} {paths : List Text}
    (h : ∀ path ∈ paths, touched (destination current path)) :
    (removeEach paths).Asks (Call.Touches current touched) := by
  induction paths with
  | nil => exact trivial
  | cons path paths ih =>
    obtain ⟨hpath, hpaths⟩ := List.forall_mem_cons.mp h
    rw [removeEach]
    have hremove : (Machine.remove path).run.Asks (Call.Touches current touched) :=
      asks_question hpath
    refine asks_bind hremove fun r => ?_
    cases r with
    | ok => exact ih hpaths
    | error e => exact asks_bind (asks_question trivial) fun _ => ih hpaths

theorem of_goes_trim {names : List Text} {limit : Int} {r : Except Fault Unit}
    (hlimit : store.limit = some limit) (hpositive : 0 ≤ limit)
    (hlisted : Listed w.disk store.folder names)
    (h : ((trim (names.map (Path.join store.folder))).run.run store).Goes step w (r, store') w') :
    r = .ok () ∧
      store' = { store with known := some ((names.take limit.toNat).map (Path.join store.folder)) } ∧
      Listed w'.disk store.folder (names.take limit.toNat) ∧
      Evolves (Backup.IsOther (destination w.disk.current store.folder) (names.take limit.toNat))
        w.disk w'.disk := by
  rw [trim, goes_get_bind_work_iff] at h
  simp only [hlimit] at h
  rw [goes_modify_bind_work_iff] at h
  obtain ⟨⟨⟩, u, hremove, h⟩ := goes_lift_bind_work_iff.mp h
  rw [if_neg (by omega)] at h
  obtain ⟨⟨rfl, rfl⟩, rfl⟩ := goes_pure_work_iff.mp h
  have hdropped : ∀ name ∈ names.drop limit.toNat, name ∉ names.take limit.toNat :=
    fun name hdrop htake => List.disjoint_take_drop hlisted.nodup (Nat.le_refl _) htake hdrop
  have hevolves : Evolves (Backup.IsOther (destination w.disk.current store.folder)
      (names.take limit.toNat)) w.disk w'.disk := by
    refine World.evolves_of_goes (touches_removeEach fun path hpath => ?_) hremove
    rw [List.mem_reverse, ← List.map_drop] at hpath
    obtain ⟨name, hname, rfl⟩ := List.mem_map.mp hpath
    obtain ⟨hproper, hend⟩ := hlisted.proper name (List.mem_of_mem_drop hname)
    exact ⟨name, hend, hdropped name hname, hproper.destination_join _ _⟩
  have hkept : Listed w.disk store.folder (names.take limit.toNat) :=
    hlisted.sublist (List.take_sublist _ _)
  refine ⟨rfl, by rw [List.map_take], hkept.of_evolves hevolves ?_, hevolves⟩
  rintro name hname ⟨removed, -, hremoved, heq⟩
  obtain rfl : name = removed := by simpa using heq
  exact hremoved hname

/-! ### Taking a backup -/

/-- Of several paths one is found where nothing stands, unless something stands at all others. -/
theorem of_goes_firstFree {path target : Text} {others : List Text}
    (h : (firstFree path others).Goes step w target w') :
    w'.disk = w.disk ∧ target ∈ path :: others ∧
      (w.disk.holds target = true → ∀ p ∈ path :: others, w.disk.holds p = true) := by
  induction others generalizing path w with
  | nil =>
    obtain ⟨rfl, rfl⟩ := goes_pure_iff.mp h
    simp
  | cons next rest ih =>
    obtain ⟨stands, u, hstands, h⟩ := goes_bind_iff.mp h
    have hfalters := World.Tame.falters (goes_question_iff.mp hstands)
    obtain rfl : stands = w.disk.holds path := hfalters.eq_host rfl
    have hu : u.disk = w.disk := hfalters.disk_eq rfl
    split at h
    next hholds =>
      obtain ⟨hworld, hmem, hall⟩ := ih h
      rw [hu] at hworld hall
      refine ⟨hworld, List.mem_cons_of_mem _ hmem, fun htarget => ?_⟩
      exact List.forall_mem_cons.mpr ⟨hholds, hall htarget⟩
    next hfree =>
      obtain ⟨rfl, rfl⟩ := goes_pure_iff.mp h
      exact ⟨hu, List.mem_cons_self, fun htarget => absurd htarget hfree⟩

theorem mem_places_iff (place : Nat → Text) {n : Nat} {path : Text} :
    path ∈ place 0 :: (List.range n).map (fun k => place (k + 1)) ↔
      ∃ count ≤ n, path = place count := by
  simp only [List.mem_cons, List.mem_map, List.mem_range]
  constructor
  · rintro (rfl | ⟨k, hk, rfl⟩)
    · exact ⟨0, Nat.zero_le _, rfl⟩
    · exact ⟨k + 1, hk, rfl⟩
  · rintro ⟨count, hcount, rfl⟩
    cases count with
    | zero => exact Or.inl rfl
    | succ k => exact Or.inr ⟨k, hcount, rfl⟩

theorem exists_free {d : Disk} {folder path : Text} {taken : Instant}
    (hfolder : d.nodeAt folder = .ok .folder)
    (hplace : d.placeOf folder = .ok (destination d.current folder)) :
    ∃ count ≤ (d.names folder).length,
      d.holds (Path.join folder (Backup.name path taken count)) = false := by
  by_contra hnone
  have hall : ∀ count ≤ (d.names folder).length,
      d.holds (Path.join folder (Backup.name path taken count)) = true := by
    intro count hcount
    by_contra hfree
    exact hnone ⟨count, hcount, by simpa using hfree⟩
  let candidates := (List.range ((d.names folder).length + 1)).map (Backup.name path taken)
  have hnodup : candidates.Nodup :=
    List.nodup_range.map fun _ _ heq => Backup.name_injective path taken heq
  have hsub : candidates ⊆ d.names folder := by
    intro name hname
    obtain ⟨count, hcount, rfl⟩ := List.mem_map.mp hname
    have hholds := hall count (by simpa [Nat.lt_succ_iff] using hcount)
    obtain ⟨place, node, hto, hnode⟩ := exists_of_holds hholds
    rw [eq_of_placeOf hto, (Backup.isName_name path taken count).destination_join] at hnode
    exact mem_names hfolder hplace hnode
  have hlength := (hnodup.subperm hsub).length_le
  simp only [candidates, List.length_map, List.length_range] at hlength
  omega

theorem not_goes_makeFolders_nil : ¬ (Machine.makeFolders []).run.Goes step w (.ok ()) w' := by
  intro h
  have hplace : ∀ d : Disk, d.placeOf [] = .error .missing := fun d => rfl
  rcases goes_tryCatch_run_iff.mp h with ⟨⟨⟩, hmake, -⟩ | ⟨e, u, hmake, hrest⟩
  · have hdisk := (World.Tame.falters (goes_question_iff.mp hmake)).of_makeFolder
    obtain ⟨place, hto, -⟩ := exists_of_makeFolder hdisk
    rw [hplace] at hto
    cases hto
  · split at hrest
    · obtain ⟨stands, v, hstands, hrest⟩ := goes_lift_bind_run_iff.mp hrest
      obtain rfl : stands = u.disk.isFolder [] :=
        (World.Tame.falters (goes_question_iff.mp hstands)).eq_host rfl
      have hfolder : u.disk.isFolder [] = false := by
        rw [isFolder, nodeAt, hplace]
        rfl
      rw [hfolder] at hrest
      cases (goes_throw_run_iff.mp hrest).1
    · cases (goes_throw_run_iff.mp hrest).1

/-- A backup that was begun: a name was free in the folder, and something was written there. -/
structure Begun (d d' : Disk) (folder name : Text) (part : Bytes) : Prop where
  isName : IsName name
  ends : endsWith name ".bak" = true
  goes : ∃ mid now, Evolves (fun _ => False) d mid ∧
    mid.node? (destination mid.current folder ++ [name]) = none ∧
    mid.write now (Path.join folder name) part = .ok d'

namespace Begun

variable {d d' : Disk} {folder name : Text} {part : Bytes}

theorem evolves (h : Begun d d' folder name part) :
    Evolves (· = destination d.current folder ++ [name]) d d' := by
  obtain ⟨mid, now, hmade, -, hwrite⟩ := h.goes
  have hwritten := evolves_of_write hwrite
  rw [h.isName.destination_join, hmade.current_eq] at hwritten
  exact (hmade.mono fun _ => False.elim).trans hwritten

theorem read_eq (h : Begun d d' folder name part) :
    d'.read (Path.join folder name) = .ok part := by
  obtain ⟨mid, now, -, -, hwrite⟩ := h.goes
  exact read_of_write hwrite

theorem listed (h : Begun d d' folder name part) {names : List Text}
    (hlisted : Listed d folder names) : Listed d' folder (name :: names) := by
  obtain ⟨mid, now, hmade, hfree, -⟩ := h.goes
  have hmid : Listed mid folder names := hlisted.of_evolves hmade fun _ _ => id
  have hnew : name ∉ names := by
    intro hmem
    obtain ⟨content, modified, hnode⟩ := hmid.stands name hmem
    rw [hfree] at hnode
    cases hnode
  have hothers : Listed d' folder names := by
    refine hlisted.of_evolves h.evolves fun other hother heq => ?_
    obtain rfl : other = name := by simpa using heq
    exact hnew hother
  obtain ⟨place, modified, hplace, hnode, -⟩ := exists_of_read h.read_eq
  rw [eq_of_placeOf hplace, h.isName.destination_join] at hnode
  refine ⟨List.nodup_cons.mpr ⟨hnew, hlisted.nodup⟩, ?_, ?_⟩
  · exact List.forall_mem_cons.mpr ⟨⟨h.isName, h.ends⟩, hlisted.proper⟩
  · exact List.forall_mem_cons.mpr ⟨⟨_, _, hnode⟩, hothers.stands⟩

end Begun

theorem create_cases {folder path content : Text} {r : Except Fault Text}
    (h : (create folder path content).run.Goes step w r w') :
    (∃ e, r = .error e) ∧ Evolves (fun _ => False) w.disk w'.disk ∨
      ∃ name part, Begun w.disk w'.disk folder name part ∧
        ((∃ e, r = .error e) ∨ r = .ok (Path.join folder name) ∧ part = Utf8.encode content ∧
          Path.holdsNull (Path.join folder name) = false) := by
  rcases goes_bind_run_iff.mp h with ⟨e, hmake, rfl⟩ | ⟨⟨⟩, u, hmake, h⟩
  · exact .inl ⟨⟨e, rfl⟩, evolves_of_goes_makeFolders hmake⟩
  have hfolder : folder ≠ [] := by
    rintro rfl
    exact not_goes_makeFolders_nil hmake
  have hevolves := evolves_of_goes_makeFolders hmake
  obtain ⟨taken, u', htaken, h⟩ := goes_lift_bind_run_iff.mp h
  obtain ⟨names, v, hnames, h⟩ := goes_lift_bind_run_iff.mp h
  obtain ⟨found, x, hfound, h⟩ := goes_lift_bind_run_iff.mp h
  have htaken := (World.Tame.falters (goes_question_iff.mp htaken)).disk_eq rfl
  have hnames := World.Tame.falters (goes_question_iff.mp hnames)
  have hv : v.disk = u.disk := (hnames.disk_eq rfl).trans htaken
  have hlisted : names = u'.disk.names folder := hnames.eq_host rfl
  rw [hlisted, htaken] at hfound
  obtain ⟨hx, hmem, hall⟩ := of_goes_firstFree hfound
  rw [← hx.trans hv] at hevolves
  rw [hv] at hall
  have hwrite : ∃ reply y, (Machine.writeText found content).run.Goes step x reply y ∧
      y.disk = w'.disk ∧ r = reply.map fun _ => found := by
    rcases goes_bind_run_iff.mp h with ⟨e, hwrite, rfl⟩ | ⟨⟨⟩, y, hwrite, h⟩
    · exact ⟨_, _, hwrite, rfl, rfl⟩
    · obtain ⟨rfl, rfl⟩ := goes_pure_run_iff.mp h
      exact ⟨_, _, hwrite, rfl, rfl⟩
  obtain ⟨reply, y, hwrite, hy, rfl⟩ := hwrite
  have hwrite := World.Tame.falters (goes_question_iff.mp hwrite)
  obtain ⟨⟨e, rfl⟩, hstill⟩ | ⟨now, part, hdisk, hdone⟩ := hwrite.write_cases
  · rw [← hstill, hy] at hevolves
    exact .inl ⟨⟨e, rfl⟩, hevolves⟩
  rw [hy] at hdisk
  let place (count : Nat) := Path.join folder (Backup.name path taken count)
  obtain ⟨count, hcount, rfl⟩ := (mem_places_iff place).mp hmem
  have hname := Backup.isName_name path taken count
  obtain ⟨_, hto, -⟩ := exists_of_write hdisk
  obtain ⟨hplace, hnode⟩ := hname.folder_of_placeOf hfolder hto
  have hfree : x.disk.node? (destination x.disk.current folder ++
      [Backup.name path taken count]) = none := by
    -- Were the name taken, all would be, and there are more of them than the folder holds.
    by_contra htaken
    obtain ⟨node, hnode'⟩ := Option.ne_none_iff_exists'.mp htaken
    rw [eq_of_placeOf hto, hname.destination_join] at hto
    rw [hx.trans hv] at hto hnode hplace hnode'
    have hholds := hall (holds_of_node? hto hnode' (hname.namesFolder_join _))
    obtain ⟨free, hfree, hfalse⟩ := exists_free hnode hplace
    rw [hholds _ ((mem_places_iff place).mpr ⟨free, hfree, rfl⟩)] at hfalse
    cases hfalse
  refine .inr ⟨_, part, ⟨hname, Backup.endsWith_name .., x.disk, now, hevolves, hfree, hdisk⟩, ?_⟩
  cases reply with
  | error e => exact .inl ⟨e, rfl⟩
  | ok =>
    obtain ⟨rfl, hproper⟩ := hdone rfl
    exact .inr ⟨rfl, rfl, hproper⟩

theorem exists_finds {d : Disk} (hsound : d.Sound) (hknown : store.known = none) :
    ∃ names, store.Finds d names := by
  obtain ⟨names, hnames, hlisted⟩ := exists_listed hsound store.folder
  exact ⟨names, hlisted, .inr ⟨hknown, hnames⟩⟩

omit [World.Tame step] in
theorem eq_of_goes_backups_of_known {known : List Text} {r : Except Fault (List Text)}
    (hknown : store.known = some known)
    (h : (backups.run.run store).Goes step w (r, store') w') :
    r = .ok known ∧ store' = store ∧ w' = w := by
  rw [backups, goes_get_bind_work_iff] at h
  simp only [hknown] at h
  obtain ⟨⟨rfl, rfl⟩, rfl⟩ := goes_pure_work_iff.mp h
  exact ⟨rfl, rfl, rfl⟩

theorem exists_trim_of_goes_backups {r : Except Fault (List Text)} (hknown : store.known = none)
    (h : (backups.run.run store).Goes step w (r, store') w') :
    ∃ u found, u.disk = w.disk ∧
      ((trim (newestFirst store.folder (w.disk.files store.folder))).run.run store).Goes step u
        (found, store') w' ∧ r = found.map fun _ => store'.known.getD [] := by
  rw [backups, goes_get_bind_work_iff] at h
  simp only [hknown] at h
  obtain ⟨files, u, hfiles, h⟩ := goes_lift_bind_work_iff.mp h
  have hfiles := World.Tame.falters (goes_question_iff.mp hfiles)
  have hlisted : files = w.disk.files store.folder := hfiles.eq_host rfl
  rw [hlisted] at h
  refine ⟨u, ?_⟩
  rcases goes_bind_work_iff.mp h with ⟨e, htrim, rfl⟩ | ⟨⟨⟩, trimmed, v, htrim, h⟩
  · exact ⟨_, hfiles.disk_eq rfl, htrim, rfl⟩
  · rw [goes_get_bind_work_iff] at h
    obtain ⟨⟨rfl, rfl⟩, rfl⟩ := goes_pure_work_iff.mp h
    exact ⟨_, hfiles.disk_eq rfl, htrim, rfl⟩

theorem of_goes_backups {names : List Text} {limit : Int} {r : Except Fault (List Text)}
    (hfinds : store.Finds w.disk names) (hlimit : store.limit = some limit) (hpositive : 0 ≤ limit)
    (h : (backups.run.run store).Goes step w (r, store') w') :
    ∃ kept, (kept = names ∨ kept = names.take limit.toNat) ∧
      r = .ok (kept.map (Path.join store.folder)) ∧
      store' = { store with known := some (kept.map (Path.join store.folder)) } ∧
      Listed w'.disk store.folder kept ∧
      Evolves (Backup.IsOther (destination w.disk.current store.folder) kept) w.disk w'.disk := by
  rcases hfinds.known with hknown | ⟨hknown, hnames⟩
  · obtain ⟨rfl, rfl, rfl⟩ := eq_of_goes_backups_of_known hknown h
    exact ⟨names, .inl rfl, rfl, by rw [← hknown], hfinds.listed, .refl _ _⟩
  · obtain ⟨u, found, hu, htrim, rfl⟩ := exists_trim_of_goes_backups hknown h
    have hlisted := hfinds.listed
    rw [hnames] at htrim
    rw [← hu] at hlisted ⊢
    obtain ⟨rfl, rfl, hlisted', hevolves⟩ := of_goes_trim hlimit hpositive hlisted htrim
    exact ⟨_, .inr rfl, rfl, rfl, hlisted', hevolves⟩

/-- What has become of a store that did not take a backup: it knows the same ones as before. -/
structure Untaken (store store' : BackupStore) (d d' : Disk) (names : List Text) : Prop where
  store_eq : store' = { store with known := some (names.map (Path.join store.folder)) }
  listed : Listed d' store.folder names
  evolves : Evolves (Backup.IsOther (destination d.current store.folder) names) d d'

/-- What has become of a store that took a backup: it comes in front of the others, and the oldest
are removed if there are more than a number of them. -/
structure Taken (store store' : BackupStore) (d d' : Disk) (number : Nat) (names : List Text)
    (name content : Text) : Prop where
  isName : IsName name
  ends : endsWith name ".bak" = true
  proper : Path.holdsNull (Path.join store.folder name) = false
  fresh : name ∉ names
  store_eq : store' =
    { store with known := some (((name :: names).take number).map (Path.join store.folder)) }
  listed : Listed d' store.folder ((name :: names).take number)
  read : 0 < number → d'.read (Path.join store.folder name) = .ok (Utf8.encode content)
  evolves : Evolves
    (Backup.IsOther (destination d.current store.folder) (names.take (number - 1))) d d'

theorem Begun.evolves_other {d d' : Disk} {folder name : Text} {part : Bytes} {names : List Text}
    (h : Begun d d' folder name part) (hlisted : Listed d folder names) :
    Evolves (Backup.IsOther (destination d.current folder) names) d d' := by
  refine h.evolves.mono ?_
  rintro place rfl
  exact ⟨name, h.ends, (List.nodup_cons.mp (h.listed hlisted).nodup).1, rfl⟩

theorem taken_of_begun (loaded : BackupStore) {kept : List Text} {limit : Int} {name content : Text}
    {u v : World} {r : Except Fault Unit} (hlimit : loaded.limit = some limit)
    (hpositive : 0 ≤ limit) (hlisted : Listed u.disk loaded.folder kept)
    (hproper : Path.holdsNull (Path.join loaded.folder name) = false)
    (hbegun : Begun u.disk v.disk loaded.folder name (Utf8.encode content))
    (h : ((trim ((Path.join loaded.folder name) :: kept.map (Path.join loaded.folder))).run.run
      loaded).Goes step v (r, store') w') :
    r = .ok () ∧ Taken loaded store' u.disk w'.disk limit.toNat kept name content := by
  have hall := hbegun.listed hlisted
  have hcurrent := hbegun.evolves.current_eq
  rw [← List.map_cons] at h
  obtain ⟨hr, hstore, htrimmed, hevolves⟩ := of_goes_trim hlimit hpositive hall h
  obtain ⟨hfresh, -⟩ := List.nodup_cons.mp hall.nodup
  have hrest : Evolves (Backup.IsOther (destination u.disk.current loaded.folder)
      (kept.take (limit.toNat - 1))) v.disk w'.disk := by
    rw [hcurrent] at hevolves
    refine hevolves.mono fun place hplace => hplace.subset fun other hother => ?_
    cases hnumber : limit.toNat with
    | zero => simp [hnumber] at hother
    | succ number =>
      rw [hnumber, Nat.add_sub_cancel] at hother
      exact List.mem_cons_of_mem _ hother
  refine ⟨hr, hbegun.isName, hbegun.ends, hproper, hfresh, hstore, htrimmed, fun hnumber => ?_, ?_⟩
  · refine hevolves.read_eq hbegun.read_eq ?_
    rw [hbegun.isName.destination_join]
    rintro ⟨other, -, hother, heq⟩
    obtain rfl : name = other := by simpa using heq
    -- the new backup leads the list, so it is not trimmed off
    obtain ⟨number, hnumber⟩ := Nat.exists_eq_succ_of_ne_zero (Nat.pos_iff_ne_zero.mp hnumber)
    exact hother (by rw [hnumber]; exact List.mem_cons_self)
  · refine ((hbegun.evolves_other hlisted).mono fun place hplace => ?_).trans hrest
    exact hplace.subset (List.take_subset _ _)

/-- The stages of a backup: the store looks what there is, a file is created, and the store is
trimmed. -/
theorem backup_stages {path content : Text} {r : Except Fault (Option Text)}
    (h : ((backup path content).run.run store).Goes step w (r, store') w') :
    (∃ e, (backups.run.run store).Goes step w (.error e, store') w' ∧ r = .error e) ∨
    ∃ known loaded u, (backups.run.run store).Goes step w (.ok known, loaded) u ∧
      ((∃ e v, (create loaded.folder path content).run.Goes step u (.error e) v ∧
          (∀ refusal, e = .disk refusal → r = .ok none) ∧ r.toOption.join = none ∧
          store' = loaded ∧ w'.disk = v.disk) ∨
        ∃ target v found x, (create loaded.folder path content).run.Goes step u (.ok target) v ∧
          ((trim (target :: known)).run.run loaded).Goes step v (found, store') x ∧
          w'.disk = x.disk ∧ r = found.map fun _ => some target) := by
  rw [backup] at h
  rcases goes_bind_work_iff.mp h with ⟨e, hload, rfl⟩ | ⟨known, loaded, u, hload, h⟩
  · exact .inl ⟨e, hload, rfl⟩
  refine .inr ⟨known, loaded, u, hload, ?_⟩
  rw [goes_get_bind_work_iff] at h
  obtain ⟨created, v, hcreate, h⟩ := goes_lift_bind_work_iff.mp h
  cases created with
  | error e =>
    refine .inl ⟨e, v, hcreate, ?_⟩
    cases e with
    | disk refusal =>
      obtain ⟨⟨⟩, y, hlog, h⟩ := goes_lift_bind_work_iff.mp h
      obtain ⟨⟨rfl, rfl⟩, rfl⟩ := goes_pure_work_iff.mp h
      exact ⟨fun _ _ => rfl, rfl, rfl, World.disk_of_still (still_call rfl) hlog⟩
    | _ =>
      obtain ⟨⟨rfl, rfl⟩, rfl⟩ := goes_throw_work_iff.mp h
      exact ⟨by simp, rfl, rfl, rfl⟩
  | ok target =>
    refine .inr ⟨target, v, ?_⟩
    dsimp only at h
    rcases goes_bind_work_iff.mp h with ⟨e, htrim, rfl⟩ | ⟨⟨⟩, trimmed, x, htrim, h⟩
    · exact ⟨_, w', hcreate, htrim, rfl, rfl⟩
    · obtain ⟨⟨⟩, y, hlog, h⟩ := goes_lift_bind_work_iff.mp h
      obtain ⟨⟨rfl, rfl⟩, rfl⟩ := goes_pure_work_iff.mp h
      exact ⟨_, x, hcreate, htrim, World.disk_of_still (still_call rfl) hlog, rfl⟩

/-- A backup is not taken if it cannot be created. One that is taken holds the content, and nothing
but backups has been touched. -/
theorem backup_cases {names : List Text} {limit : Int} {path content : Text}
    {r : Except Fault (Option Text)} (hfinds : store.Finds w.disk names)
    (hlimit : store.limit = some limit) (hpositive : 0 ≤ limit)
    (h : ((backup path content).run.run store).Goes step w (r, store') w') :
    ∃ kept, (kept = names ∨ kept = names.take limit.toNat) ∧
      ((∃ u v e, (create store.folder path content).run.Goes step u (.error e) v ∧
          r.toOption.join = none ∧ Untaken store store' w.disk w'.disk kept) ∨
        ∃ name, r = .ok (some (Path.join store.folder name)) ∧
          Taken store store' w.disk w'.disk limit.toNat kept name content) := by
  rcases backup_stages h with ⟨e, hload, -⟩ | ⟨known, loaded, u, hload, hrest⟩
  · obtain ⟨kept, -, heq, -⟩ := of_goes_backups hfinds hlimit hpositive hload
    cases heq
  obtain ⟨kept, hkept, heq, rfl, hlisted, hloaded⟩ := of_goes_backups hfinds hlimit hpositive hload
  refine ⟨kept, hkept, ?_⟩
  obtain rfl := Except.ok.inj heq
  have hcurrent := hloaded.current_eq
  rcases hrest with ⟨e, v, hcreate, -, hr, rfl, hdisk⟩ |
    ⟨target, v, found, x, hcreate, htrim, hdisk, rfl⟩
  · have hfailed : Evolves (Backup.IsOther (destination w.disk.current store.folder) kept) u.disk
        v.disk ∧ Listed v.disk store.folder kept := by
      rw [← hcurrent]
      rcases create_cases hcreate with ⟨-, hevolves⟩ | ⟨name, part, hbegun, -⟩
      · exact ⟨hevolves.mono fun _ => False.elim, hlisted.of_evolves hevolves fun _ _ => id⟩
      · exact ⟨hbegun.evolves_other hlisted,
          (hbegun.listed hlisted).sublist (List.sublist_cons_self ..)⟩
    obtain ⟨hevolves, hlisted'⟩ := hfailed
    refine .inl ⟨u, v, e, hcreate, hr, rfl, ?_, ?_⟩
    · rwa [hdisk]
    · rw [hdisk]
      exact hloaded.trans hevolves
  · obtain ⟨⟨e, heq⟩, -⟩ | ⟨name, part, hbegun, ⟨e, heq⟩ | ⟨heq, rfl, hproper⟩⟩ :=
      create_cases hcreate
    · cases heq
    · cases heq
    obtain rfl := Except.ok.inj heq
    let loaded : BackupStore := { store with known := some (kept.map (Path.join store.folder)) }
    obtain ⟨rfl, htaken⟩ :=
      taken_of_begun loaded hlimit hpositive hlisted hproper hbegun htrim
    rw [← hdisk] at htaken
    refine .inr ⟨name, rfl, htaken.isName, htaken.ends, htaken.proper, htaken.fresh,
      htaken.store_eq, htaken.listed, htaken.read, ?_⟩
    have hevolves := htaken.evolves
    rw [hcurrent] at hevolves
    exact (hloaded.mono fun place hplace => hplace.subset (List.take_subset _ _)).trans hevolves

theorem granted_create {folder path content : Text} {r : Except Fault Text}
    (h : (create folder path content).run.Goes World.granting w r w') :
    ∃ target, r = .ok target := by
  rcases goes_bind_run_iff.mp h with ⟨e, hmake, -⟩ | ⟨⟨⟩, u, -, h⟩
  · cases granted_makeFolders hmake
  obtain ⟨taken, v, -, h⟩ := goes_lift_bind_run_iff.mp h
  obtain ⟨names, v, -, h⟩ := goes_lift_bind_run_iff.mp h
  obtain ⟨target, v, -, h⟩ := goes_lift_bind_run_iff.mp h
  rcases goes_bind_run_iff.mp h with ⟨e, hwrite, -⟩ | ⟨⟨⟩, x, -, h⟩
  · cases granted_write hwrite
  · exact ⟨target, (goes_pure_run_iff.mp h).1⟩

theorem granted_backup {limit : Int} {path content : Text} {r : Except Fault (Option Text)}
    (hsound : w.disk.Sound) (hknown : store.known = none) (hlimit : store.limit = some limit)
    (hpositive : 1 ≤ limit)
    (h : ((backup path content).run.run store).Goes World.granting w
      (r, store') w') :
    ∃ ref, r = .ok (some ref) ∧ ref ≠ [] ∧ Path.holdsNull ref = false ∧
      Backup.IsPlaceIn (destination w.disk.current store.folder) (destination w.disk.current ref) ∧
      w'.disk.read ref = .ok (Utf8.encode content) ∧
      Evolves (Backup.IsPlaceIn (destination w.disk.current store.folder)) w.disk w'.disk := by
  obtain ⟨names, hfinds⟩ := exists_finds hsound hknown
  obtain ⟨kept, -, ⟨u, v, e, hcreate, -⟩ | ⟨name, hr, htaken⟩⟩ :=
    backup_cases hfinds hlimit (by omega) h
  · obtain ⟨target, heq⟩ := granted_create hcreate
    cases heq
  · exact ⟨_, hr, htaken.isName.join_ne_nil _, htaken.proper,
      ⟨name, htaken.ends, htaken.isName.destination_join _ _⟩, htaken.read (by omega),
      htaken.evolves.mono fun _ hplace => hplace.isPlaceIn⟩

end BackupStore

end CodeGraft
