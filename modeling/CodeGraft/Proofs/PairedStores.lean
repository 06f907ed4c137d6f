import CodeGraft.Proofs.Ledgers
import CodeGraft.Proofs.StoredBackups

/-!
# Stores that keep pace

A backup store and a ledger of one limit begin with nothing. Each change puts a backup in front of
one and an entry in front of the other, and both drop what goes beyond the limit. So the entries and
the backups stay paired one to one, whatever fails in between.
-/

namespace CodeGraft

open Text Dialogue Disk

def Disk.Vacant (d : Disk) (place : Place) : Prop :=
  ∀ content modified, d.node? place ≠ some (.file content modified)

theorem Disk.Vacant.evolves {touched : Place → Prop} {d d' : Disk} {place : Place}
    (h : d.Vacant place) (hevolves : Evolves touched d d') (hfree : ¬ touched place) :
    d'.Vacant place :=
  fun content modified hfile => h content modified (hevolves.file_before hfree hfile)

theorem Disk.Vacant.not_read {d : Disk} {path : Text} (h : d.Vacant (destination d.current path))
    (content : Bytes) : d.read path ≠ .ok content := by
  intro hread
  obtain ⟨place, modified, hplace, hnode, -⟩ := exists_of_read hread
  rw [eq_of_placeOf hplace] at hnode
  exact h content modified hnode

namespace World

theorem nodup_change (w : World) (path : Text) {answer : Except DiskRefusal Disk}
    (h : (w.disk.nodes.map (·.1)).Nodup)
    (hanswer : ∀ disk, answer = .ok disk → (disk.nodes.map (·.1)).Nodup) :
    ((w.change path answer).2.disk.nodes.map (·.1)).Nodup := by
  unfold change
  split
  next disk hask => exact hanswer disk (ask_eq_ok_iff.mp hask).2
  next => exact h

theorem nodup_host (c : Call) {w : World} (h : (w.disk.nodes.map (·.1)).Nodup) :
    ((host c w).2.disk.nodes.map (·.1)).Nodup := by
  cases c with
  | write path content =>
    refine nodup_change w path h fun disk hdisk => ?_
    obtain ⟨place, -, -, -, -, rfl⟩ := exists_of_write hdisk
    exact nodup_put h _ _
  | makeFolder path =>
    refine nodup_change w path h fun disk hdisk => ?_
    obtain ⟨place, -, -, -, rfl⟩ := exists_of_makeFolder hdisk
    exact nodup_put h _ _
  | remove path =>
    refine nodup_change w path h fun disk hdisk => ?_
    obtain ⟨place, -, -, -, -, rfl⟩ := exists_of_remove hdisk
    exact nodup_erase h _
  | _ => exact h

theorem Falters.nodup {c : Call} {r : Answer c} {w w' : World} (h : Falters c w r w')
    (hnodup : (w.disk.nodes.map (·.1)).Nodup) : (w'.disk.nodes.map (·.1)).Nodup := by
  cases h with
  | answers now h =>
    have hw : (host c { w with now }).2.disk = w'.disk := congrArg (·.2.disk) h
    rw [← hw]
    exact nodup_host c hnodup
  | unread => exact hnodup
  | unmade => exact hnodup
  | unremoved => exact hnodup
  | unwritten => exact hnodup
  | torn _ _ _ _ _ _ hwrite =>
    obtain ⟨place, -, -, -, -, rfl⟩ := exists_of_write hwrite
    exact nodup_put hnodup _ _

theorem nodup_of_goes {α : Type} {step : Step Answer World} [Tame step] {d : Routine α} {a : α}
    {w w' : World} (h : d.Goes step w a w') (hnodup : (w.disk.nodes.map (·.1)).Nodup) :
    (w'.disk.nodes.map (·.1)).Nodup :=
  h.invariant (I := fun u => (u.disk.nodes.map (·.1)).Nodup)
    (fun _ _ _ _ _ hstep => (Tame.falters hstep).nodup) (asks_of_forall (fun _ => trivial) d) hnodup

end World

variable {step : Step Answer World} [World.Tame step] {w w' : World}

namespace BackupStore

/-- A store has the backups of some names, or it has not looked for any and there are none. -/
structure Keeps (store : BackupStore) (d : Disk) (names : List Text) : Prop where
  listed : Listed d store.folder names
  known : store.known = some (names.map (Path.join store.folder)) ∨
    store.known = none ∧ names = [] ∧
      ∀ place, Backup.IsPlaceIn (destination d.current store.folder) place → d.Vacant place

variable {store : BackupStore} {d d' : Disk} {names : List Text}

theorem newestFirst_eq_nil {folder : Text} (hnodup : (d.nodes.map (·.1)).Nodup)
    (hnone : ∀ place, Backup.IsPlaceIn (destination d.current folder) place → d.Vacant place) :
    newestFirst folder (d.files folder) = [] := by
  have hfiles : (d.files folder).filter (fun f => endsWith f.1 ".bak") = [] := by
    rw [List.filter_eq_nil_iff]
    rintro ⟨name, modified⟩ hfile hend
    obtain ⟨content, hmem⟩ := exists_mem_of_mem_files hfile
    have hnode := node?_of_mem hnodup hmem (by simp)
    exact hnone _ ⟨name, hend, rfl⟩ content modified hnode
  rw [newestFirst]
  simp only [hfiles, List.mergeSort_nil, List.map_nil]

theorem Keeps.finds (h : store.Keeps d names) (hnodup : (d.nodes.map (·.1)).Nodup) :
    store.Finds d names := by
  refine ⟨h.listed, h.known.imp_right ?_⟩
  rintro ⟨hknown, rfl, hnone⟩
  exact ⟨hknown, newestFirst_eq_nil hnodup hnone⟩

theorem Keeps.of_evolves {touched : Place → Prop} (h : store.Keeps d names)
    (hevolves : Evolves touched d d')
    (hfree : ∀ place, Backup.IsPlaceIn (destination d.current store.folder) place →
      ¬ touched place) : store.Keeps d' names := by
  refine ⟨h.listed.of_evolves hevolves fun name hname => ?_, h.known.imp_right ?_⟩
  · exact hfree _ ⟨name, (h.listed.proper name hname).2, rfl⟩
  · rintro ⟨hknown, hnames, hnone⟩
    refine ⟨hknown, hnames, fun place hplace => ?_⟩
    rw [hevolves.current_eq] at hplace
    exact (hnone place hplace).evolves hevolves (hfree place hplace)

end BackupStore

namespace Ledger

/-- A ledger has some entries, or it has not been read and there is no file of it. -/
def Keeps (l : Ledger) (d : Disk) (entries : List HistoryEntry) : Prop :=
  l.known = some entries ∨
    l.known = none ∧ entries = [] ∧ d.Vacant (destination d.current l.path)

variable {l l' : Ledger} {d d' : Disk} {es : List HistoryEntry}

omit [World.Tame step] in
theorem Keeps.of_evolves {touched : Place → Prop} (h : l.Keeps d es)
    (hevolves : Evolves touched d d') (hfree : ¬ touched (destination d.current l.path)) :
    l.Keeps d' es := by
  refine h.imp_right ?_
  rintro ⟨hknown, hentries, hvacant⟩
  refine ⟨hknown, hentries, ?_⟩
  rw [hevolves.current_eq]
  exact hvacant.evolves hevolves hfree

theorem of_goes_readValue_of_vacant {path : Text} {r : Except Fault Json.Value}
    (hvacant : w.disk.Vacant (destination w.disk.current path))
    (h : (readValue path).run.Goes step w r w') : r = .ok (.list []) ∧ w'.disk = w.disk := by
  obtain ⟨found, u, hread, h⟩ := goes_lift_bind_run_iff.mp h
  have hu : u.disk = w.disk := World.disk_of_still (still_readText path) hread
  cases found with
  | ok text =>
    obtain ⟨-, content, hcontent, -⟩ := of_goes_readText hread
    exact absurd hcontent (hvacant.not_read content)
  | error e =>
    obtain ⟨⟨⟩, v, hlog, h⟩ := goes_lift_bind_run_iff.mp h
    obtain ⟨rfl, rfl⟩ := goes_pure_run_iff.mp h
    exact ⟨rfl, (World.disk_of_still (still_call rfl) hlog).trans hu⟩

theorem of_goes_standingIn_of_vacant {path : Text} {r : Except Fault (List HistoryEntry)}
    (hvacant : w.disk.Vacant (destination w.disk.current path))
    (h : (standingIn path).run.Goes step w r w') : r = .ok [] ∧ w'.disk = w.disk := by
  obtain ⟨stands, u, hholds, h⟩ := goes_lift_bind_run_iff.mp h
  have hu : u.disk = w.disk := (World.Tame.falters (goes_question_iff.mp hholds)).disk_eq rfl
  rw [← hu] at hvacant ⊢
  dsimp only at h
  rw [ite_bind] at h
  have hvalue : ∀ {found v}, (if stands then readValue path else pure (.list []) :
      Errand Json.Value).run.Goes step u found v → found = .ok (.list []) ∧ v.disk = u.disk := by
    intro found v hgoes
    split at hgoes
    next => exact of_goes_readValue_of_vacant hvacant hgoes
    next =>
      obtain ⟨rfl, rfl⟩ := goes_pure_run_iff.mp hgoes
      exact ⟨rfl, rfl⟩
  rcases goes_bind_run_iff.mp h with ⟨e, hfound, -⟩ | ⟨value, v, hfound, hrest⟩
  · cases (hvalue hfound).1
  obtain ⟨heq, hv⟩ := hvalue hfound
  obtain rfl := Except.ok.inj heq
  obtain ⟨rfl, rfl⟩ := goes_pure_run_iff.mp hrest
  exact ⟨rfl, hv⟩

theorem Keeps.of_goes_entries {r : Except Fault (List HistoryEntry)} (hkeeps : l.Keeps w.disk es)
    (h : (entries.run.run l).Goes step w (r, l') w') :
    r = .ok es ∧ l' = { l with known := some es } ∧ w'.disk = w.disk := by
  rw [entries, goes_get_bind_work_iff] at h
  rcases hkeeps with hknown | ⟨hknown, rfl, hvacant⟩
  · simp only [hknown] at h
    obtain ⟨⟨rfl, rfl⟩, rfl⟩ := goes_pure_work_iff.mp h
    exact ⟨rfl, by rw [← hknown], rfl⟩
  · simp only [hknown] at h
    obtain ⟨hstanding, rfl⟩ := of_goes_load h
    obtain ⟨rfl, hdisk⟩ := of_goes_standingIn_of_vacant hvacant hstanding
    exact ⟨rfl, rfl, hdisk⟩

omit [World.Tame step] in
theorem touches_write (current : Place) (path : Text) (entries : List HistoryEntry) :
    (write path entries).run.Asks (Call.Touches current (· = destination current path)) := by
  refine asks_bind ?_ fun _ => trivial
  exact asks_bind_run (touches_makeFoldersUpTo ..) fun _ => asks_question rfl

theorem of_goes_save {r : Except Fault Unit} (h : (save.run.run l).Goes step w (r, l') w') :
    l' = l ∧ Evolves (· = destination w.disk.current l.path) w.disk w'.disk := by
  rw [save, goes_get_bind_work_iff] at h
  obtain ⟨found, u, hwrite, h⟩ := goes_lift_bind_work_iff.mp h
  have hevolves := World.evolves_of_goes (touches_write ..) hwrite
  cases found with
  | ok =>
    obtain ⟨⟨-, rfl⟩, rfl⟩ := goes_pure_work_iff.mp h
    exact ⟨rfl, hevolves⟩
  | error e =>
    obtain ⟨⟨-, rfl⟩, rfl⟩ := goes_throw_work_iff.mp h
    exact ⟨rfl, hevolves⟩

theorem Keeps.of_goes_record {entry : HistoryEntry} {r : Except Fault (Bool × HistoryEntry)}
    (hkeeps : l.Keeps w.disk es) (hfile : entry.filePath.isFilled = true)
    (href : entry.backupRef.isFilled = true) (htimestamp : entry.timestamp.isFilled = true)
    (h : ((record entry).run.run l).Goes step w (r, l') w') :
    l' = { l with known := some (kept l.limit (entry :: es)) } ∧
      Evolves (· = destination w.disk.current l.path) w.disk w'.disk := by
  rw [record, if_neg (by simp [hfile, href])] at h
  simp only [htimestamp, if_true] at h
  rw [goes_pure_bind_work_iff] at h
  rcases goes_bind_work_iff.mp h with ⟨e, hentries, -⟩ | ⟨others, loaded, u, hentries, h⟩
  · cases (hkeeps.of_goes_entries hentries).1
  obtain ⟨heq, rfl, hdisk⟩ := hkeeps.of_goes_entries hentries
  obtain rfl := Except.ok.inj heq
  rw [goes_modify_bind_work_iff] at h
  rw [← hdisk]
  have hsaved : ∀ {a : Except Fault (Bool × HistoryEntry)} {k v},
      ((do save; return (true, entry) : Work (Bool × HistoryEntry)).run.run
        { l with known := some (kept l.limit (entry :: others)) }).Goes step u (a, k) v →
      k = { l with known := some (kept l.limit (entry :: others)) } ∧
        Evolves (· = destination u.disk.current l.path) u.disk v.disk := by
    intro a k v hgoes
    rcases goes_bind_work_iff.mp hgoes with ⟨e, hsave, -⟩ | ⟨⟨⟩, k', v', hsave, hdone⟩
    · exact of_goes_save hsave
    · obtain ⟨⟨-, rfl⟩, rfl⟩ := goes_pure_work_iff.mp hdone
      exact of_goes_save hsave
  rcases goes_tryCatch_work_iff.mp h with ⟨b, hdone, -⟩ | ⟨e, k, v, hfailed, h⟩
  · exact hsaved hdone
  obtain ⟨rfl, hevolves⟩ := hsaved hfailed
  split at h
  next =>
    obtain ⟨⟨⟩, x, hlog, h⟩ := goes_lift_bind_work_iff.mp h
    obtain ⟨⟨-, rfl⟩, rfl⟩ := goes_pure_work_iff.mp h
    rw [World.disk_of_still (still_call rfl) hlog]
    exact ⟨rfl, hevolves⟩
  next =>
    obtain ⟨⟨-, rfl⟩, rfl⟩ := goes_throw_work_iff.mp h
    exact ⟨rfl, hevolves⟩

end Ledger

/-! ### Pairs -/

theorem forall₂_imp_of_mem {α β : Type} {R S : α → β → Prop} {as : List α} {bs : List β}
    (h : List.Forall₂ R as bs) (himp : ∀ a ∈ as, ∀ b ∈ bs, R a b → S a b) :
    List.Forall₂ S as bs := by
  induction h with
  | nil => exact .nil
  | cons hab _ ih =>
    refine .cons (himp _ List.mem_cons_self _ List.mem_cons_self hab) (ih fun a ha b hb => ?_)
    exact himp a (List.mem_cons_of_mem _ ha) b (List.mem_cons_of_mem _ hb)

/-- The backup of a name stands behind an entry: it is the one that the entry refers to, and it holds
what should be kept for it. -/
structure Backs (keeps : HistoryEntry → Bytes → Prop) (d : Disk) (folder : Text) (e : HistoryEntry)
    (name : Text) : Prop where
  ref_eq : e.backupRef = .text (Path.join folder name)
  holds : ∃ content, keeps e content ∧ d.read (Path.join folder name) = .ok content

theorem Backs.of_evolves {keeps : HistoryEntry → Bytes → Prop} {touched : Place → Prop}
    {d d' : Disk} {folder name : Text} {e : HistoryEntry} (h : Backs keeps d folder e name)
    (hname : IsName name) (hevolves : Evolves touched d d')
    (hfree : ¬ touched (destination d.current folder ++ [name])) : Backs keeps d' folder e name := by
  obtain ⟨content, hkeeps, hread⟩ := h.holds
  refine ⟨h.ref_eq, content, hkeeps, hevolves.read_eq hread ?_⟩
  rwa [hname.destination_join]

namespace Stores

def Owns (stores : Stores) (current place : Place) : Prop :=
  Backup.IsPlaceIn (destination current stores.backups.folder) place ∨
    place = destination current stores.ledger.path

/-- Stores of one limit whose entries and backups are paired, the newest first. -/
structure Paired (stores : Stores) (d : Disk) (own : Place → Prop) (cap : Nat)
    (keeps : HistoryEntry → Bytes → Prop) (entries : List HistoryEntry) (names : List Text) :
    Prop where
  nodup : (d.nodes.map (·.1)).Nodup
  owns_eq : stores.Owns d.current = own
  apart : ¬ Backup.IsPlaceIn (destination d.current stores.backups.folder)
    (destination d.current stores.ledger.path)
  backups_limit : stores.backups.limit = some (cap : Int)
  ledger_limit : stores.ledger.limit = cap
  short : names.length ≤ cap
  backups : stores.backups.Keeps d names
  ledger : stores.ledger.Keeps d entries
  pairs : List.Forall₂ (Backs keeps d stores.backups.folder) entries names

/-- Stores of one limit that have nothing yet, with nothing of theirs on the disk. -/
structure AreEmpty (stores : Stores) (d : Disk) (cap : Nat) : Prop where
  backups_known : stores.backups.known = none
  ledger_known : stores.ledger.known = none
  backups_limit : stores.backups.limit = some (cap : Int)
  ledger_limit : stores.ledger.limit = cap
  /-- The file of the ledger is not named like a backup. -/
  apart : ¬ Backup.IsPlaceIn (destination d.current stores.backups.folder)
    (destination d.current stores.ledger.path)
  vacant : ∀ place, stores.Owns d.current place → d.Vacant place

theorem AreEmpty.paired {stores : Stores} {d : Disk} {cap : Nat} (h : stores.AreEmpty d cap)
    (hnodup : (d.nodes.map (·.1)).Nodup) (keeps : HistoryEntry → Bytes → Prop) :
    stores.Paired d (stores.Owns d.current) cap keeps [] [] := by
  have hlisted : BackupStore.Listed d stores.backups.folder [] := ⟨.nil, by simp, by simp⟩
  have hbackups : ∀ place, Backup.IsPlaceIn (destination d.current stores.backups.folder) place →
      d.Vacant place := fun place hplace => h.vacant place (.inl hplace)
  exact { nodup := hnodup, owns_eq := rfl, apart := h.apart, backups_limit := h.backups_limit,
          ledger_limit := h.ledger_limit, short := Nat.zero_le _,
          backups := ⟨hlisted, .inr ⟨h.backups_known, rfl, hbackups⟩⟩,
          ledger := .inr ⟨h.ledger_known, rfl, h.vacant _ (.inr rfl)⟩, pairs := .nil }

namespace Paired

variable {stores : Stores} {d d' d'' : Disk} {own touched : Place → Prop} {cap : Nat}
  {keeps keeps' : HistoryEntry → Bytes → Prop} {entries : List HistoryEntry} {names : List Text}

theorem owns_of_isPlaceIn (h : stores.Paired d own cap keeps entries names) {place : Place}
    (hplace : Backup.IsPlaceIn (destination d.current stores.backups.folder) place) : own place := by
  rw [← h.owns_eq]
  exact .inl hplace

theorem owns_ledger (h : stores.Paired d own cap keeps entries names) :
    own (destination d.current stores.ledger.path) := by
  rw [← h.owns_eq]
  exact .inr rfl

theorem exists_backs (h : stores.Paired d own cap keeps entries names) {e : HistoryEntry}
    (he : e ∈ entries) : ∃ name ∈ names, Backs keeps d stores.backups.folder e name := by
  obtain ⟨index, hindex, rfl⟩ := List.getElem_of_mem he
  have hlength := h.pairs.length_eq
  exact ⟨names[index], List.getElem_mem _, h.pairs.get hindex (hlength ▸ hindex)⟩

theorem ref_ne (h : stores.Paired d own cap keeps entries names) {name : Text} (hname : IsName name)
    (hfresh : name ∉ names) {e : HistoryEntry} (he : e ∈ entries) :
    e.backupRef ≠ .text (Path.join stores.backups.folder name) := by
  obtain ⟨other, hother, hbacks⟩ := h.exists_backs he
  rw [hbacks.ref_eq]
  intro heq
  have hproper := (h.backups.listed.proper other hother).1
  obtain rfl := hproper.eq_of_join hname (Json.Value.text.inj heq)
  exact hfresh hother

theorem imp (h : stores.Paired d own cap keeps entries names)
    (himp : ∀ e ∈ entries, ∀ content, keeps e content → keeps' e content) :
    stores.Paired d own cap keeps' entries names := by
  refine { h with pairs := forall₂_imp_of_mem h.pairs fun e he name _ hbacks => ?_ }
  obtain ⟨content, hkeeps, hread⟩ := hbacks.holds
  exact ⟨hbacks.ref_eq, content, himp e he content hkeeps, hread⟩

theorem of_evolves (h : stores.Paired d own cap keeps entries names)
    (hnodup : (d'.nodes.map (·.1)).Nodup) (hevolves : Evolves touched d d')
    (hfree : ∀ place, own place → ¬ touched place) :
    stores.Paired d' own cap keeps entries names := by
  have hbackups : ∀ place, Backup.IsPlaceIn (destination d.current stores.backups.folder) place →
      ¬ touched place := fun place hplace => hfree place (h.owns_of_isPlaceIn hplace)
  refine { nodup := hnodup, owns_eq := ?_, apart := ?_, backups_limit := h.backups_limit,
           ledger_limit := h.ledger_limit, short := h.short,
           backups := h.backups.of_evolves hevolves hbackups,
           ledger := h.ledger.of_evolves hevolves (hfree _ h.owns_ledger), pairs := ?_ }
  · rw [hevolves.current_eq, h.owns_eq]
  · rw [hevolves.current_eq]
    exact h.apart
  · refine forall₂_imp_of_mem h.pairs fun e _ name hname hbacks => ?_
    obtain ⟨hproper, hend⟩ := h.backups.listed.proper name hname
    exact hbacks.of_evolves hproper hevolves (hbackups _ ⟨name, hend, rfl⟩)

/-- A backup that is not taken may leave a file of another name, and nothing else. -/
theorem of_untaken {store : BackupStore} (h : stores.Paired d own cap keeps entries names)
    (hnodup : (d'.nodes.map (·.1)).Nodup)
    (huntaken : BackupStore.Untaken stores.backups store d d' names) :
    ({ stores with backups := store } : Stores).Paired d' own cap keeps entries names := by
  obtain ⟨rfl, hlisted, hevolves⟩ := huntaken
  refine { nodup := hnodup, owns_eq := ?_, apart := ?_, backups_limit := h.backups_limit,
           ledger_limit := h.ledger_limit, short := h.short, backups := ⟨hlisted, .inl rfl⟩,
           ledger := h.ledger.of_evolves hevolves fun hother => h.apart hother.isPlaceIn,
           pairs := ?_ }
  · rw [hevolves.current_eq, ← h.owns_eq]
    rfl
  · rw [hevolves.current_eq]
    exact h.apart
  · refine forall₂_imp_of_mem h.pairs fun e _ name hname hbacks => ?_
    refine hbacks.of_evolves (h.backups.listed.proper name hname).1 hevolves ?_
    rintro ⟨other, -, hother, heq⟩
    obtain rfl : name = other := by simpa using heq
    exact hother hname

theorem evolves_own {store : BackupStore} {name content : Text}
    (h : stores.Paired d own cap keeps entries names)
    (htaken : BackupStore.Taken stores.backups store d d' cap names name content)
    (hrecorded : Evolves (· = destination d'.current stores.ledger.path) d' d'') :
    Evolves own d d'' := by
  refine (htaken.evolves.mono fun place hother => ?_).trans (hrecorded.mono ?_)
  · exact h.owns_of_isPlaceIn hother.isPlaceIn
  · rintro _ rfl
    rw [htaken.evolves.current_eq]
    exact h.owns_ledger

/-- A backup that is taken and an entry that refers to it are a new pair in front of the others, and
both stores keep the same number of them. -/
theorem of_taken {store : BackupStore} {ledger : Ledger} {name content : Text} {e : HistoryEntry}
    (h : stores.Paired d own cap keeps entries names) (hnodup : (d''.nodes.map (·.1)).Nodup)
    (htaken : BackupStore.Taken stores.backups store d d' cap names name content)
    (href : e.backupRef = .text (Path.join stores.backups.folder name))
    (hkeeps : keeps e (Utf8.encode content))
    (hledger : ledger =
      { stores.ledger with known := some (Ledger.kept stores.ledger.limit (e :: entries)) })
    (hrecorded : Evolves (· = destination d'.current stores.ledger.path) d' d'') :
    Paired ⟨store, ledger⟩ d'' own cap keeps ((e :: entries).take cap) ((name :: names).take cap) := by
  have hcurrent : d''.current = d.current :=
    hrecorded.current_eq.trans htaken.evolves.current_eq
  have hstore := htaken.store_eq
  have hbackup : ∀ other, endsWith other ".bak" = true →
      ¬ destination d'.current stores.backups.folder ++ [other] =
        destination d'.current stores.ledger.path := by
    intro other hend heq
    rw [htaken.evolves.current_eq] at heq
    exact h.apart ⟨other, hend, heq.symm⟩
  subst hstore hledger
  refine { nodup := hnodup, owns_eq := ?_, apart := ?_, backups_limit := h.backups_limit,
           ledger_limit := h.ledger_limit, short := List.length_take_le _ _,
           backups := ⟨?_, .inl rfl⟩, ledger := .inl ?_, pairs := ?_ }
  · rw [hcurrent, ← h.owns_eq]
    rfl
  · rw [hcurrent]
    exact h.apart
  · exact htaken.listed.of_evolves hrecorded fun other hother =>
      hbackup other (htaken.listed.proper other hother).2
  · rw [Ledger.kept, h.ledger_limit, if_pos (Int.natCast_nonneg cap), Int.toNat_natCast]
  · cases cap with
    | zero => exact .nil
    | succ number =>
      refine .cons ⟨href, _, hkeeps, ?_⟩ ?_
      · refine hrecorded.read_eq (htaken.read (Nat.succ_pos number)) ?_
        rw [htaken.isName.destination_join]
        exact hbackup name htaken.ends
      · refine forall₂_imp_of_mem (List.forall₂_take number h.pairs)
          fun e _ other hother hbacks => ?_
        obtain ⟨hproper, hend⟩ := h.backups.listed.proper other (List.mem_of_mem_take hother)
        refine (hbacks.of_evolves hproper htaken.evolves ?_).of_evolves hproper hrecorded
          (hbackup other hend)
        -- the kept backups are those that the new one leaves alone
        rintro ⟨removed, -, hremoved, heq⟩
        obtain rfl : other = removed := by simpa using heq
        exact hremoved hother

end Paired

end Stores

end CodeGraft
