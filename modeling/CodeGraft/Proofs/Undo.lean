import CodeGraft.Proofs.Commands
import CodeGraft.Proofs.StoredBackups

/-!
# Taking back an applied change

A block that updates a file first leaves what it takes to undo the change: a backup of the old
content, and an entry in front of the ledger that says where it is. The write of the file leaves both
alone if the file lies outside of the backup folder, so that the next command can restore it.
-/

namespace CodeGraft

open Text Dialogue Disk

/-- What it takes to undo the newest change in a ledger: its entry and the backup of the content. -/
structure Undoable (d : Disk) (ledger path content : Text) (ref description timestamp : Text)
    (others : List HistoryEntry) : Prop where
  ref_ne_nil : ref ≠ []
  ref_proper : Path.holdsNull ref = false
  backup : d.read ref = .ok (Utf8.encode content)
  ledger_proper : Path.holdsNull ledger = false
  entries : d.read ledger = .ok (Utf8.encode (Ledger.render
    (.ofTexts path ref description timestamp :: others)))
  textual : ∀ e ∈ others, e.IsTextual

namespace Undoable

variable {touched : Place → Prop} {d d' : Disk} {ledger path content ref description timestamp : Text}
  {others : List HistoryEntry}

theorem evolves (h : Undoable d ledger path content ref description timestamp others)
    (hevolves : Evolves touched d d') (href : ¬ touched (destination d.current ref))
    (hledger : ¬ touched (destination d.current ledger)) :
    Undoable d' ledger path content ref description timestamp others :=
  ⟨h.ref_ne_nil, h.ref_proper, hevolves.read_eq h.backup href, h.ledger_proper,
    hevolves.read_eq h.entries hledger, h.textual⟩

theorem all_textual (h : Undoable d ledger path content ref description timestamp others) :
    ∀ e ∈ HistoryEntry.ofTexts path ref description timestamp :: others, e.IsTextual :=
  List.forall_mem_cons.mpr ⟨⟨_, _, _, _, rfl⟩, h.textual⟩

theorem itemsIn_eq (h : Undoable d ledger path content ref description timestamp others)
    (levels : NestingLimit) : Ledger.itemsIn levels d ledger =
      .ok ((.ofTexts path ref description timestamp :: others).map HistoryEntry.toValue) :=
  Ledger.itemsIn_of_read levels h.ledger_proper h.entries h.all_textual

theorem textAt_eq (h : Undoable d ledger path content ref description timestamp others)
    (hunbroken : '\r' ∉ content) : World.textAt d ref = .ok content := by
  refine World.textAt_eq_ok_iff.mpr ⟨h.ref_proper, _, h.backup, ?_⟩
  rw [textOf_of_decode (Utf8.decode_encode content), unifyNewlines_eq_self_iff.mpr hunbroken]

theorem exists_standing (h : Undoable d ledger path content ref description timestamp others) :
    ∃ rest, Ledger.standingOn d
        ((.ofTexts path ref description timestamp :: others).map HistoryEntry.toValue) =
      .ofTexts path ref description timestamp :: rest := by
  obtain ⟨place, modified, hplace, hnode, hname⟩ := exists_of_read h.backup
  have hstands : Ledger.standsOn d (.ofTexts path ref description timestamp) = true := by
    simp [Ledger.standsOn, HistoryEntry.ofTexts, h.ref_ne_nil, holds_of_node? hplace hnode hname]
  rw [Ledger.standingOn_map_toValue, List.filter_cons_of_pos hstands]
  exact ⟨_, rfl⟩

end Undoable

section

variable {w : LocalWorkspace} {settings : Settings} {company : Company} {stores : Stores}
  {world : World} {after : Stores × World} {target path existing how : Text} {limit : Int}

/-- Two stores in one folder into which nobody has looked yet. -/
structure Stores.AreNew (stores : Stores) (limit : Int) : Prop where
  backups : stores.backups.known = none
  ledger : stores.ledger.known = none
  capped : stores.backups.limit = some limit
  positive : 1 ≤ limit
  limit_eq : stores.ledger.limit = limit
  place : ∀ current, destination current stores.ledger.path =
    destination current stores.backups.folder ++ [historyFileName]

theorem Stores.AreNew.ledger_free (h : stores.AreNew limit) (current : Place) :
    ¬ Backup.IsPlaceIn (destination current stores.backups.folder)
      (destination current stores.ledger.path) := by
  rintro ⟨name, hend, heq⟩
  rw [h.place] at heq
  obtain rfl : historyFileName = name := by simpa using heq
  revert hend
  decide

theorem Undoable.of_write {d d' : Disk} {content written ref description timestamp : Text}
    {others : List HistoryEntry} {now : Instant}
    (h : Undoable d stores.ledger.path path content ref description timestamp others)
    (hnew : stores.AreNew limit)
    (hplace : Backup.IsPlaceIn (destination d.current stores.backups.folder)
      (destination d.current ref))
    (houtside : ¬ destination d.current stores.backups.folder <+: destination d.current path)
    (hwrite : d.write now path (Utf8.encode written) = .ok d') :
    Undoable d' stores.ledger.path path content ref description timestamp others := by
  refine h.evolves (evolves_of_write hwrite) ?_ ?_
  · obtain ⟨name, -, hname⟩ := hplace
    intro heq
    rw [← heq, hname] at houtside
    exact houtside (List.prefix_append _ _)
  · intro heq
    rw [← heq, hnew.place] at houtside
    exact houtside (List.prefix_append _ _)

theorem exists_kept {limit : Int} (hpositive : 1 ≤ limit) (entry : HistoryEntry)
    {entries : List HistoryEntry} (htextual : ∀ e ∈ entries, e.IsTextual) :
    ∃ others, Ledger.kept limit (entry :: entries) = entry :: others ∧
      ∀ e ∈ others, e.IsTextual := by
  obtain ⟨spare, hspare⟩ : ∃ spare, limit.toNat = spare + 1 := ⟨limit.toNat - 1, by omega⟩
  refine ⟨entries.take spare, ?_, fun e he => htextual e (List.mem_of_mem_take he)⟩
  rw [Ledger.kept, if_pos (by omega), hspare, List.take_succ_cons]

theorem exists_recorded {taken : Stores × World} {ref : Text} {recording : List (Exchange Reply)}
    (hrecords : company.records = true) (hpath : path ≠ []) (href : ref ≠ [])
    (hknown : taken.1.ledger.known = none) (hpositive : 1 ≤ taken.1.ledger.limit)
    {items : List Json.Value}
    (hitems : Ledger.itemsIn taken.2.nesting taken.2.disk taken.1.ledger.path = .ok items)
    (htextual : Ledger.Textual items)
    (hrecording : Recording company how (some (path, ref)) recording)
    (h : Follows (w.steps World.granting) taken recording after) :
    ∃ description timestamp others, (∀ e ∈ others, e.IsTextual) ∧
      Path.holdsNull taken.1.ledger.path = false ∧
      after.2.disk.read taken.1.ledger.path = .ok (Utf8.encode (Ledger.render
        (.ofTexts path ref description timestamp :: others))) ∧
      Evolves (· = destination taken.2.disk.current taken.1.ledger.path) taken.2.disk
        after.2.disk := by
  cases hrecording with
  | unasked hoff =>
    rw [hrecords] at hoff
    cases hoff
  | asked now reply _ htold =>
    obtain ⟨clocked, hclock, recorded, hrecord, hrest⟩ := h
    obtain ⟨hdisk, hstores⟩ := LocalWorkspace.still_of_steps rfl hclock
    obtain ⟨found, ledger, hrecord, -⟩ := LocalWorkspace.of_steps_record hrecord
    have hrest := LocalWorkspace.still_of_follows htold.looking.uneffective hrest
    rw [hstores] at hrecord
    rw [← hdisk, ← LocalWorkspace.surroundings_of_steps hclock] at hitems
    obtain ⟨-, hproper, hread, hevolves⟩ := Ledger.granted_record hknown hitems htextual
      (Json.Value.isFilled_text hpath) (Json.Value.isFilled_text href)
      (Json.Value.isFilled_text now.extended_ne_nil) hrecord
    obtain ⟨others, hkept, hothers⟩ := exists_kept hpositive (changeEntry path ref how now)
      (Ledger.textual_standingOn htextual clocked.2.disk)
    rw [hkept, ← hrest.1] at hread
    rw [hdisk, ← hrest.1] at hevolves
    exact ⟨_, _, others, hothers, hproper, hread, hevolves⟩

theorem exists_backed_up {attempt : List (Exchange Reply)} {kept : Option (Text × Text)}
    {taken : Stores × World} (hresolves : company.resolvesPaths = true)
    (hpath : w.absolutePath target = .ok path) (hnew : stores.AreNew limit)
    (hsound : world.disk.Sound) (hattempt : BackupAttempt company target existing attempt kept)
    (h : Follows (w.steps World.granting) (stores, world) attempt taken) :
    ∃ ref, kept = some (path, ref) ∧ ref ≠ [] ∧ Path.holdsNull ref = false ∧
      Backup.IsPlaceIn (destination world.disk.current stores.backups.folder)
        (destination world.disk.current ref) ∧
      taken.2.disk.read ref = .ok (Utf8.encode existing) ∧ taken.1.ledger = stores.ledger ∧
      Evolves (Backup.IsPlaceIn (destination world.disk.current stores.backups.folder)) world.disk
        taken.2.disk := by
  cases hattempt with
  | direct _ hoff =>
    rw [hresolves] at hoff
    cases hoff
  | unplaced e =>
    obtain ⟨u, hplaced, -⟩ := h
    have heq := (LocalWorkspace.eq_of_steps_absolutePath hplaced).1
    rw [hpath] at heq
    cases heq
  | placed found reply =>
    obtain ⟨u, hplaced, v, hbackup, rfl⟩ := h
    obtain ⟨hfound, rfl⟩ := LocalWorkspace.eq_of_steps_absolutePath hplaced
    rw [hpath] at hfound
    cases hfound
    -- the store has not been looked into, so this is where its folder is read and trimmed
    obtain ⟨backups, hbackup, hstores⟩ := LocalWorkspace.of_steps_backup hbackup
    obtain ⟨ref, rfl, hne, hproper, hplace, hread, hevolves⟩ :=
      BackupStore.granted_backup hsound hnew.backups hnew.capped hnew.positive hbackup
    have hkept : kept? (Except.map (path, ·) (.ok (some ref))) = some (path, ref) := by
      simp [kept?, Except.map, hne]
    exact ⟨ref, hkept, hne, hproper, hplace, hread, by rw [hstores], hevolves⟩

/-- The backup is taken and the change recorded, and nothing but the stores' files is touched. -/
theorem exists_undoable {keeping : List (Exchange Reply)}
    (hsettings : (settings.backups && company.backups) = true) (hrecords : company.records = true)
    (hresolves : company.resolvesPaths = true) (hpath : w.absolutePath target = .ok path)
    (hne : path ≠ []) (hnew : stores.AreNew limit) (hsound : world.disk.Sound)
    (htexts : Ledger.HoldsTexts world.nesting world.disk stores.ledger.path)
    (hkeeping : Keeping settings company target existing how keeping)
    (h : Follows (w.steps World.granting) (stores, world) keeping after) :
    ∃ ref description timestamp others,
      Undoable after.2.disk stores.ledger.path path existing ref description timestamp others ∧
      Backup.IsPlaceIn (destination after.2.disk.current stores.backups.folder)
        (destination after.2.disk.current ref) ∧
      after.2.disk.current = world.disk.current := by
  cases hkeeping with
  | unasked hoff =>
    rw [hsettings] at hoff
    cases hoff
  | attempted _ hattempt hrecording =>
    obtain ⟨taken, htaken, hrecorded⟩ := follows_append.mp h
    obtain ⟨ref, rfl, href, hproper, hplace, hread, hledger, hevolves⟩ :=
      exists_backed_up hresolves hpath hnew hsound hattempt htaken
    obtain ⟨items, hitems, htextual⟩ := htexts.exists_items hevolves (hnew.ledger_free _)
    have hsame : taken.2.toSurroundings = world.toSurroundings :=
      LocalWorkspace.surroundings_of_follows htaken
    rw [← hledger, ← hsame] at hitems
    obtain ⟨description, timestamp, others, hothers, hledgerProper, hentries, hrecorded⟩ :=
      exists_recorded hrecords hne href (by rw [hledger, hnew.ledger])
        (by rw [hledger, hnew.limit_eq]; exact hnew.positive) hitems htextual hrecording hrecorded
    rw [hledger] at hledgerProper hentries hrecorded
    have hcurrent := hrecorded.current_eq.trans hevolves.current_eq
    rw [← hevolves.current_eq] at hplace
    -- the record goes to the ledger, and the ledger is no backup
    have hstill : after.2.disk.read ref = .ok (Utf8.encode existing) :=
      hrecorded.read_eq hread fun heq => hnew.ledger_free _ (heq ▸ hplace)
    rw [← hrecorded.current_eq] at hplace
    exact ⟨ref, description, timestamp, others,
      ⟨href, hproper, hstill, hledgerProper, hentries, hothers⟩, hplace, hcurrent⟩

end

/-! ### One command and the next -/

namespace Command

open LocalWorkspace

variable {σ τ : Type} {m : ClockedHost σ} {start : σ} {s s' : Shared} {o : ApplyOptions}
  {w w' : World} {place base path text : Text} {bytes : Bytes} {limit : Int} {result : BlockResult}

theorem areNew_storesIn (place : Text) (hpositive : 1 ≤ limit) :
    (storesIn (some limit) place).AreNew limit :=
  ⟨rfl, rfl, rfl, hpositive, rfl, fun current => isName_historyFileName.destination_join current place⟩

/-- What a batch is told that keeps backups: where they go, and how many there may be. -/
structure KeepsBackups (s : Shared) (o : ApplyOptions) (homes : Text → Option Text)
    (place base : Text) (limit : Int) : Prop where
  backups : (companyOf o).backups = true
  place_eq : s.place homes = .ok place
  base_eq : o.base = some base
  limit_eq : s.maxHistory = some limit
  positive : 1 ≤ limit

/-- A file that is no part of the stores. There may be anything in them already, but for entries of
something else than texts. -/
structure Apart (w : World) (stores : Stores) (path : Text) (bytes : Bytes) : Prop where
  sound : w.disk.Sound
  texts : Ledger.HoldsTexts w.nesting w.disk stores.ledger.path
  read : w.disk.read path = .ok bytes
  outside : ¬ destination w.disk.current stores.backups.folder <+: destination w.disk.current path

/-- A batch with backups that was held to its end was held with stores in their folder. -/
theorem exists_session {summary : Summary} (hkeeps : KeepsBackups s o w.homes place base limit)
    (h : (applyInput s o).run.Goes (World.turns World.grants) w (.ok (.ok summary)) w') :
    ∃ text u, u.disk = w.disk ∧ u.toSurroundings = w.toSurroundings ∧
      ((workspaceAt w base).hold (storesIn (some limit) place)
        (applyText (settingsOf o) (companyOf o) text)).Goes World.granting u summary w' := by
  obtain ⟨found, u, hsource, hdisk, hcases⟩ := applyInput_cases h
  have hsame := World.surroundings_of_goes hsource
  rcases found with e | objection | text
  · cases hcases
  · cases Except.ok.inj hcases
  · rw [Shared.scene, Shared.placeFor, hkeeps.backups, if_pos rfl, hkeeps.place_eq,
      hkeeps.limit_eq] at hcases
    simp only [Except.bind, hkeeps.base_eq] at hcases
    split at hcases
    next hmissing => cases hcases
    next hscene =>
      split at hscene
      next => cases hscene
      next =>
        obtain ⟨rfl, rfl⟩ := Prod.mk.inj (Except.ok.inj hscene)
        obtain ⟨found, hok, hheld⟩ := hcases
        obtain rfl := Except.ok.inj (Except.ok.inj hok)
        exact ⟨text, u, hdisk, hsame, hheld⟩

theorem exists_undoable_of_batch {summary : Summary}
    (hkeeps : KeepsBackups s o w.homes place base limit)
    (hapart : Apart w (storesIn (some limit) place) path bytes)
    (htext : Machine.textOf bytes = .ok text)
    (hresults : summary.results = [result]) (hupdated : result.status = .updated)
    (hpath : (workspaceAt w base).absolutePath result.path = .ok path)
    (h : (applyInput s o).run.Goes World.granting w (.ok (.ok summary)) w') :
    Path.holdsNull path = false ∧ (∃ content, w'.disk.read path = .ok content) ∧
      ∃ ref description timestamp others,
        Undoable w'.disk (Path.join place historyFileName) path text ref description timestamp
          others := by
  have hchosen := hkeeps.backups
  simp only [companyOf, Bool.and_eq_true, Bool.not_eq_true'] at hchosen
  obtain ⟨input, begun, hbegun, hbegunSame, hheld⟩ := exists_session hkeeps h
  obtain ⟨block, found, old, existing, revision, keeping, ready, done, stores', hreadySame, hready,
    hdone, hupdates⟩ := exists_updates_of_hold hheld hresults hupdated hchosen.2
  obtain rfl := Except.ok.inj (hpath.symm.trans hupdates.path_eq)
  have hold := hupdates.read
  rw [hready, hbegun, hapart.read] at hold
  obtain rfl := Except.ok.inj hold
  obtain rfl := Except.ok.inj (htext.symm.trans hupdates.text)
  obtain ⟨⟨asked, asking⟩, kept, now, haskingSame, hasking, hasked, hkeeping, hwrite⟩ :=
    hupdates.goes
  dsimp only at haskingSame hasking hasked hwrite
  subst hasked
  -- until the old content is kept, nothing on the disk has changed
  have hsame : asking.disk = w.disk := hasking.trans (hready.trans hbegun)
  have hsurroundings : asking.toSurroundings = w.toSurroundings :=
    haskingSame.trans (hreadySame.trans hbegunSame)
  have hnew := areNew_storesIn place hkeeps.positive
  obtain ⟨ref, description, timestamp, others, hundoable, hplace, hcurrent⟩ :=
    exists_undoable (by simp [settingsOf, companyOf, hchosen.1, hchosen.2])
      (by simp [companyOf, hchosen.1, hchosen.2]) rfl hpath (ne_nil_of_read hapart.read) hnew
      (hsame ▸ hapart.sound) (by rw [hsame, hsurroundings]; exact hapart.texts) hupdates.keeps
      hkeeping
  have houtside := hapart.outside
  rw [← hsame, ← hcurrent] at houtside
  have hleft := hundoable.of_write hnew hplace houtside hwrite
  rw [← hdone] at hleft hwrite
  exact ⟨hupdates.proper, ⟨_, read_of_write hwrite⟩, ref, description, timestamp, others, hleft⟩

def reports (m : ClockedHost σ) (s : Shared) (o : ApplyOptions) (start : σ) : List BlockResult :=
  match (Dialogue.run m.host (applyInput s o).run start).1 with
  | .ok (.ok summary) => summary.results
  | _ => []

theorem exists_of_reports (h : reports m s o start = [result]) :
    ∃ summary, (Dialogue.run m.host (applyInput s o).run start).1 = .ok (.ok summary) ∧
      summary.results = [result] := by
  unfold reports at h
  split at h
  next summary hsummary => exact ⟨summary, hsummary, h⟩
  next => cases h

theorem return_not_mem_of_decode (hdecode : Utf8.decode bytes = .ok text) (h : 0x0D ∉ bytes) :
    '\r' ∉ text := by
  intro hmem
  rw [← Utf8.encode_of_decode hdecode] at h
  exact h (List.mem_flatMap.mpr ⟨'\r', hmem, by decide⟩)

/-- Taking back the newest change restores the file that a single block has updated, byte by byte,
whatever the stores held before and however the clock goes. -/
theorem run_revert_restores {m' : ClockedHost τ} {later : τ} {line back : List Text}
    (hline : Invocation.read line = .ok ⟨s, .apply o⟩)
    (hkeeps : KeepsBackups s o (m.world start).homes place base limit)
    (hapart : Apart (m.world start) (storesIn (some limit) place) path bytes)
    (hdecode : Utf8.decode bytes = .ok text) (hunbroken : 0x0D ∉ bytes)
    (hgranted : throughout m.host (fun c t => World.grants c (m.world t)) (run line).run start =
      true)
    (hreports : reports m s o start = [result]) (hupdated : result.status = .updated)
    (hpath : (workspaceAt (m.world start) base).absolutePath result.path = .ok path)
    (hback : Invocation.read back = .ok ⟨s', .revert (some 1)⟩)
    (hplace : s'.place (m'.world later).homes = .ok place)
    (hdisk : (m'.world later).disk =
      (m.world (Dialogue.run m.host (run line).run start).2.1).disk) :
    (Dialogue.run m'.host (run back).run later).1 = .ok 0 ∧
      (m'.world (Dialogue.run m'.host (run back).run later).2.1).disk.read path = .ok bytes := by
  have happlied : (run line).run.Goes (m.steps World.grants) start
      (Dialogue.run m.host (run line).run start).1
      (Dialogue.run m.host (run line).run start).2.1 := goes_steps_iff.mpr ⟨rfl, rfl, hgranted⟩
  obtain ⟨found, u, hinput, rest, hstill, hrest⟩ := exists_batch hline happlied
  have hsame := World.disk_of_still hstill (ClockedHost.goes_world hrest)
  obtain ⟨summary, hsummary, hresults⟩ := exists_of_reports hreports
  obtain rfl := (goes_steps_iff.mp hinput).1.symm.trans hsummary
  have hbreaks := return_not_mem_of_decode hdecode hunbroken
  have htext : Machine.textOf bytes = .ok text := by
    rw [textOf_of_decode hdecode, unifyNewlines_eq_self_iff.mpr hbreaks]
  obtain ⟨hproper, ⟨content, hcontent⟩, ref, description, timestamp, others, hundoable⟩ :=
    exists_undoable_of_batch hkeeps hapart htext hresults hupdated hpath
      (ClockedHost.goes_world hinput)
  rw [← hsame, ← hdisk] at hcontent hundoable
  obtain ⟨newest, hnewest⟩ := hundoable.exists_standing
  have hreverted : (run back).run.Goes (World.turns fun _ _ => true) (m'.world later) _ _ :=
    ClockedHost.goes_world (goes_run m'.host (run back).run later)
  refine carries_of_goes_run (P := fun v => v.disk.read path = .ok bytes) hback ?_ hreverted
  intro r v hrevert
  rw [← Utf8.encode_of_decode hdecode]
  exact restores_of_goes_runRevert hplace (hundoable.itemsIn_eq _)
    (Ledger.textual_map_toValue hundoable.all_textual) hnewest (hundoable.textAt_eq hbreaks) hproper
    hcontent hrevert

def olderEntry : HistoryEntry :=
  .ofTexts "/home/ada/ws/z.js" "/home/ada/b/z.js.2025-01-02T03-04-05-000006Z.bak" "older" "2025"

/-- A machine with a file, and with the backup of another file that is newer than its clock. -/
def crowded : World where
  homes user := if user = "ada" then some "/home/ada/" else none
  disk :=
    { nodes := [(["home"], .folder), (["home", "ada"], .folder), (["home", "ada", "b"], .folder),
        (["home", "ada", "ws"], .folder),
        (["home", "ada", "ws", "a.js"],
          .file (Utf8.encode "let a = 1\n") ⟨2024, 1, 2, 3, 4, 5, 6⟩),
        (["home", "ada", "b", "z.js.2025-01-02T03-04-05-000006Z.bak"],
          .file (Utf8.encode "z") ⟨2025, 1, 2, 3, 4, 5, 6⟩),
        (["home", "ada", "b", "history.json"],
          .file (Utf8.encode (Ledger.render [olderEntry])) ⟨2025, 1, 2, 3, 4, 5, 6⟩)],
      current := ["home", "ada", "ws"] }
  now := ⟨2024, 1, 2, 3, 4, 5, 6⟩
  clipboard := "a.js\n```js\nlet a = 2\n```\n"

/-- A machine whose clock goes on by a microsecond with each call. -/
def crowdedHost : ClockedHost (World × Nat) :=
  .ticking fun n => ⟨2024, 1, 2, 3, 4, 5, n⟩

def updateLine : List Text :=
  ["--backup-dir", "~ada/b", "--max-history", "1", "apply", "--yes", "--clipboard"]

def revertLine : List Text := ["--backup-dir", "/home/ada/b", "revert"]

def updatedCrowd : World × Nat :=
  (Dialogue.run crowdedHost.host (Command.run updateLine).run (crowded, 0)).2.1

/-- The file is restored though there is room for one backup only, and the next command names the
folder of the backups in another way. -/
theorem run_revert_restores_crowded :
    let reverted := Dialogue.run crowdedHost.host (Command.run revertLine).run updatedCrowd
    let after := (crowdedHost.world updatedCrowd).disk
    after.read "/home/ada/ws/a.js".toList = .ok (Utf8.encode "let a = 2") ∧
      (after.files "/home/ada/b".toList).map (·.1) =
        ["history.json".toList, "a.js.2024-01-02T03-04-05-000015Z.bak".toList] ∧
      reverted.1 = .ok 0 ∧
      (crowdedHost.world reverted.2.1).disk.read "/home/ada/ws/a.js".toList =
        .ok (Utf8.encode "let a = 1\n") := by
  let s : Shared :=
    { backupFolder := some (some "~ada/b"), maxHistory := some 1,
      command := ["apply", "--yes", "--clipboard"] }
  let s' : Shared := { backupFolder := some (some "/home/ada/b"), command := ["revert"] }
  let o : ApplyOptions := { source := { clipboard := true }, yes := true }
  have hline : Invocation.read updateLine = .ok ⟨s, .apply o⟩ := rfl
  have hback : Invocation.read revertLine = .ok ⟨s', .revert (some 1)⟩ := rfl
  have hkeeps : KeepsBackups s o crowded.homes "/home/ada/b" "." 1 :=
    ⟨rfl, rfl, rfl, rfl, by decide⟩
  have htextual : ∀ e ∈ [olderEntry], e.IsTextual := by
    simp only [List.mem_singleton, forall_eq]
    exact ⟨_, _, _, _, rfl⟩
  have hapart : Apart crowded (storesIn (some 1) "/home/ada/b") "/home/ada/ws/a.js"
      (Utf8.encode "let a = 1\n") := by
    refine ⟨⟨by decide +kernel, by decide +kernel⟩, ?_, by decide +kernel, by decide +kernel⟩
    exact Ledger.holdsTexts_of_render _ htextual rfl
  have hunbroken : 0x0D ∉ Utf8.encode "let a = 1\n" := by decide +kernel
  have hgranted : throughout crowdedHost.host (fun c t => World.grants c (crowdedHost.world t))
      (Command.run updateLine).run (crowded, 0) = true := by decide +kernel
  have hreports : reports crowdedHost s o (crowded, 0) =
      [⟨"a.js", .updated, "replaced file"⟩] := by decide +kernel
  have hpath : (workspaceAt crowded ".").absolutePath "a.js" = .ok "/home/ada/ws/a.js" := rfl
  have hplace : s'.place (crowdedHost.world updatedCrowd).homes = .ok "/home/ada/b" := rfl
  have hdisk : (crowdedHost.world updatedCrowd).disk = (crowdedHost.world
      (Dialogue.run crowdedHost.host (Command.run updateLine).run (crowded, 0)).2.1).disk := rfl
  have hrestored := run_revert_restores hline hkeeps hapart (Utf8.decode_encode _) hunbroken
    hgranted hreports rfl hpath hback hplace hdisk
  exact ⟨by decide +kernel, by decide +kernel, hrestored⟩

end Command

end CodeGraft
