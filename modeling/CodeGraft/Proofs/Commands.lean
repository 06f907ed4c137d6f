import CodeGraft.Command.Run
import CodeGraft.Proofs.Ledgers

/-!
# Commands on a machine

A command that applies blocks holds a session in a workspace, with stores that have not yet been
looked into; what it does before and behind leaves the disk alone. A command that takes a change back
reads the ledger and restores a file.
-/

namespace CodeGraft.Command

open Text Dialogue

variable {test : Call → World → Bool} {w w' : World} {s : Shared} {o : ApplyOptions}

/-! ### Places of stores -/

/-- The path with a home in place of a leading tilde and the name behind it, or why there is none. -/
def expanded (homes : Text → Option Text) (path : Text) : Except Fault Text :=
  match Path.tildeName? path with
  | none => .ok path
  | some user =>
    if Path.holdsNull user then .error .nullInPath
    else .ok (((homes user).map (Path.putHome · path)).getD path)

theorem eq_of_goes_expandHome {path : Text} {r : Except Fault Text}
    (h : (Machine.expandHome path).run.Goes (World.turns test) w r w') :
    r = expanded w.homes path ∧ w' = w := by
  unfold Machine.expandHome at h
  unfold expanded
  cases huser : Path.tildeName? path with
  | none =>
    simp only [huser] at h
    exact goes_pure_run_iff.mp h
  | some user =>
    simp only [huser] at h
    by_cases hnull : Path.holdsNull user = true
    · rw [if_pos hnull] at h
      simp only [hnull, if_true]
      exact goes_throw_run_iff.mp h
    · rw [if_neg hnull] at h
      simp only [hnull]
      obtain ⟨home, u, hhome, hrest⟩ := goes_lift_bind_run_iff.mp h
      obtain ⟨rfl, rfl⟩ : w.homes user = home ∧ w = u := by
        simpa [World.host] using ((goes_call_iff rfl).mp hhome).2
      cases hfound : w.homes user with
      | none =>
        rw [hfound] at hrest
        exact goes_pure_run_iff.mp hrest
      | some home =>
        rw [hfound] at hrest
        exact goes_pure_run_iff.mp hrest

theorem expanded_join {name : Text} (h : Disk.IsName name) (htilde : name.head? ≠ some '~')
    (homes : Text → Option Text) (folder : Text) :
    expanded homes (Path.join folder name) = (expanded homes folder).map (Path.join · name) := by
  have hplain : Path.tildeName? name = none := by
    unfold Path.tildeName?
    split
    next => simp at htilde
    next => rfl
  cases folder with
  | nil =>
    rw [h.nil_join, expanded, hplain, expanded]
    exact congrArg Except.ok h.nil_join.symm
  | cons c rest =>
    have hne := List.cons_ne_nil c rest
    have hname : Path.tildeName? (Path.join (c :: rest) name) = Path.tildeName? (c :: rest) := by
      rw [h.join_eq hne]
      by_cases hlast : (c :: rest).getLast? = some '/'
      · rw [if_pos hlast]
        rcases List.mem_cons.mp (List.mem_of_getLast? hlast) with rfl | hmem
        · simp [Path.tildeName?]
        · exact Disk.tildeName?_append (.inl hmem)
      · rw [if_neg hlast]
        exact Disk.tildeName?_append (.inr rfl)
    rw [expanded, hname, expanded]
    cases Path.tildeName? (c :: rest) with
    | none => rfl
    | some user =>
      dsimp only
      split
      next => rfl
      next =>
        cases homes user with
        | none => rfl
        | some home => exact congrArg Except.ok (h.putHome_join home hne)

def Shared.folderOn (s : Shared) (homes : Text → Option Text) : Except Fault Text :=
  match s.backupFolder with
  | none => expanded homes defaultBackupFolder
  | some none => .error (.notOpenable "list")
  | some (some folder) => .ok folder

/-- The folder that the backups are put into, or why there is none. -/
def Shared.place (s : Shared) (homes : Text → Option Text) : Except Fault Text :=
  (s.folderOn homes).bind (expanded homes)

/-- The folder that the stores of a batch are in. Without backups it does not matter which. -/
def Shared.placeFor (s : Shared) (company : Company) (homes : Text → Option Text) :
    Except Fault Text :=
  if company.backups then s.place homes else .ok []

/-- The stores in a folder into which nobody has looked yet. -/
def storesIn (limit : Option Int) (place : Text) : Stores :=
  ⟨⟨place, limit, none⟩, ⟨Path.join place historyFileName, limit.getD 0, none⟩⟩

theorem isName_historyFileName : Disk.IsName historyFileName := by decide

/-- Where the first part of an errand changes nothing, what comes of it goes on to the second. -/
theorem goes_bind_of_eq {α β : Type} {x : Errand α} {f : α → Errand β} {found : Except Fault α}
    {r : Except Fault β}
    (hx : ∀ {r u}, x.run.Goes (World.turns test) w r u → r = found ∧ u = w)
    (h : (x >>= f).run.Goes (World.turns test) w r w') :
    (∃ e, found = .error e ∧ r = .error e ∧ w' = w) ∨
      ∃ a, found = .ok a ∧ (f a).run.Goes (World.turns test) w r w' := by
  rcases goes_bind_run_iff.mp h with ⟨e, hfailed, rfl⟩ | ⟨a, u, hdone, hrest⟩
  · obtain ⟨rfl, rfl⟩ := hx hfailed
    exact .inl ⟨e, rfl, rfl, rfl⟩
  · obtain ⟨rfl, rfl⟩ := hx hdone
    exact .inr ⟨a, rfl, hrest⟩

theorem eq_of_goes_folder {r : Except Fault Text}
    (h : s.folder.run.Goes (World.turns test) w r w') : r = s.folderOn w.homes ∧ w' = w := by
  unfold Shared.folder at h
  unfold Shared.folderOn
  generalize s.backupFolder = chosen at h ⊢
  rcases chosen with _ | _ | folder
  · exact eq_of_goes_expandHome h
  · exact goes_throw_run_iff.mp h
  · exact goes_pure_run_iff.mp h

theorem eq_of_goes_ledgerIn {folder : Text} {r : Except Fault Ledger}
    (h : (s.ledgerIn folder).run.Goes (World.turns test) w r w') :
    r = (expanded w.homes folder).map (fun place => (storesIn s.maxHistory place).ledger) ∧
      w' = w := by
  have hpath : (Path.join folder historyFileName).isEmpty = false := by
    simpa using isName_historyFileName.join_ne_nil folder
  have hjoin := expanded_join isName_historyFileName (by decide) w.homes folder
  unfold Shared.ledgerIn Ledger.atPath at h
  simp only [hpath, Bool.false_eq_true, if_false] at h
  rcases goes_bind_of_eq eq_of_goes_expandHome h with ⟨e, heq, rfl, rfl⟩ | ⟨path, heq, hlast⟩
  · rw [hjoin] at heq
    generalize expanded w'.homes folder = found at heq ⊢
    cases found with
    | error e' => exact ⟨congrArg Except.error (Except.error.inj heq).symm, rfl⟩
    | ok place => cases heq
  · rw [hjoin] at heq
    obtain ⟨rfl, rfl⟩ := goes_pure_run_iff.mp hlast
    generalize expanded w'.homes folder = found at heq ⊢
    cases found with
    | error e => cases heq
    | ok place =>
      obtain rfl := Except.ok.inj heq
      exact ⟨rfl, rfl⟩

theorem eq_of_goes_inFolder {folder : Text} {limit : Option Int} {r : Except Fault BackupStore}
    (h : (BackupStore.inFolder folder limit).run.Goes (World.turns test) w r w') :
    r = (expanded w.homes folder).map (fun place => (storesIn limit place).backups) ∧ w' = w := by
  rcases goes_bind_of_eq eq_of_goes_expandHome h with ⟨e, heq, rfl, rfl⟩ | ⟨place, heq, hlast⟩
  · rw [heq]
    exact ⟨rfl, rfl⟩
  · rw [heq]
    exact goes_pure_run_iff.mp hlast

theorem eq_of_goes_storesAt {folder : Text} {r : Except Fault Stores}
    (h : (do return ⟨← BackupStore.inFolder folder s.maxHistory, ← s.ledgerIn folder⟩ :
      Errand Stores).run.Goes (World.turns test) w r w') :
    r = (expanded w.homes folder).map (storesIn s.maxHistory) ∧ w' = w := by
  rcases goes_bind_of_eq eq_of_goes_inFolder h with ⟨e, hbackups, rfl, rfl⟩ | ⟨backups, hbackups, h⟩
  · generalize expanded w'.homes folder = found at hbackups ⊢
    cases found with
    | error e' => exact ⟨congrArg Except.error (Except.error.inj hbackups).symm, rfl⟩
    | ok place => cases hbackups
  · have hledger := goes_bind_of_eq eq_of_goes_ledgerIn h
    generalize expanded w.homes folder = found at hbackups hledger ⊢
    cases found with
    | error e => cases hbackups
    | ok place =>
      obtain rfl := Except.ok.inj hbackups
      rcases hledger with ⟨e, heq, -⟩ | ⟨ledger, heq, hlast⟩
      · cases heq
      · obtain rfl := Except.ok.inj heq
        exact goes_pure_run_iff.mp hlast

theorem eq_of_goes_stores {company : Company} {r : Except Fault Stores}
    (h : (s.stores company).run.Goes (World.turns test) w r w') :
    r = (s.placeFor company w.homes).map (storesIn s.maxHistory) ∧ w' = w := by
  unfold Shared.stores at h
  unfold Shared.placeFor
  cases hbackups : company.backups with
  | false =>
    simp only [hbackups, Bool.false_eq_true, if_false] at h ⊢
    exact eq_of_goes_storesAt h
  | true =>
    simp only [hbackups, if_true] at h ⊢
    rw [Shared.place]
    rcases goes_bind_of_eq eq_of_goes_folder h with ⟨e, heq, rfl, rfl⟩ | ⟨folder, heq, hrest⟩
    · rw [heq]
      exact ⟨rfl, rfl⟩
    · rw [heq]
      exact eq_of_goes_storesAt hrest

def workspaceAt (w : World) (base : Text) : LocalWorkspace :=
  ⟨Path.real ('/' :: joinWith ['/'] w.disk.current) base, false⟩

theorem eq_of_goes_atFolder {base : Text} {r : Except Fault LocalWorkspace}
    (h : (LocalWorkspace.atFolder base false).run.Goes (World.turns test) w r w') :
    r = (if Path.holdsNull base then .error .nullInPath else .ok (workspaceAt w base)) ∧ w' = w := by
  unfold LocalWorkspace.atFolder at h
  split at h
  next hnull =>
    rw [if_pos hnull]
    exact goes_throw_run_iff.mp h
  next hproper =>
    rw [if_neg hproper]
    obtain ⟨current, u, hcurrent, hrest⟩ := goes_lift_bind_run_iff.mp h
    obtain ⟨-, hhost⟩ := (goes_call_iff rfl).mp hcurrent
    cases hhost
    exact goes_pure_run_iff.mp hrest

theorem Source.still_read (source : Source) : Still source.read.run := by
  unfold Source.read
  split
  · exact trivial
  · exact asks_bind_run (asks_lift_run (still_call rfl)) fun _ => trivial
  · exact asks_bind_run (still_call rfl) fun _ => trivial
  · refine asks_tryCatch_run (asks_bind_run (still_readText _) fun _ => trivial) fun e => ?_
    split <;> exact trivial

/-- Where a batch takes place: its stores and its workspace, or what is missing for them. An option
that was given no value is missing, and so is a path that no disk can have. -/
def Shared.scene (s : Shared) (o : ApplyOptions) (w : World) :
    Except Fault (Stores × LocalWorkspace) :=
  (s.placeFor (companyOf o) w.homes).bind fun place =>
    match o.base with
    | none => .error (.notOpenable "list")
    | some base =>
      if Path.holdsNull base then .error .nullInPath
      else .ok (storesIn s.maxHistory place, workspaceAt w base)

theorem Shared.scene_eq_of_disk_eq {u : World} (hdisk : u.disk = w.disk)
    (hsame : u.toSurroundings = w.toSurroundings) : s.scene o u = s.scene o w := by
  have hworkspace : workspaceAt u = workspaceAt w := by
    funext base
    rw [workspaceAt, hdisk, workspaceAt]
  rw [scene, hworkspace, hsame, scene]

/-- What is done of a batch once its input is known. -/
theorem eq_of_goes_scene {text : Text} {r : Except Fault (Except Objection Summary)}
    (h : (do
      let stores ← s.stores (companyOf o)
      let workspace ← LocalWorkspace.atFolder (← needPath o.base) false
      let session := applyText (settingsOf o) (companyOf o) text
      return .ok (← (workspace.hold stores session : Routine Summary)) :
        Errand (Except Objection Summary)).run.Goes (World.turns test) w r w') :
    match s.scene o w with
    | .error e => r = .error e
    | .ok (stores, workspace) => ∃ summary, r = .ok (.ok summary) ∧
      (workspace.hold stores (applyText (settingsOf o) (companyOf o) text)).Goes
        (World.turns test) w summary w' := by
  have hstores := goes_bind_of_eq eq_of_goes_stores h
  unfold Shared.scene
  generalize s.placeFor (companyOf o) w.homes = place at hstores ⊢
  rcases hstores with ⟨e, heq, rfl, -⟩ | ⟨stores, heq, hrest⟩
  · cases place with
    | error e' => exact congrArg Except.error (Except.error.inj heq).symm
    | ok place => cases heq
  cases place with
  | error e => cases heq
  | ok place =>
    obtain rfl := Except.ok.inj heq
    cases hbase : o.base with
    | none =>
      rw [hbase] at hrest
      exact (goes_throw_run_iff (e := Fault.notOpenable "list")).mp hrest |>.1
    | some base =>
      rw [hbase] at hrest
      have hworkspace := goes_bind_of_eq eq_of_goes_atFolder hrest
      dsimp only [Except.bind]
      split at hworkspace
      next hnull =>
        rw [if_pos hnull]
        rcases hworkspace with ⟨e, heq, rfl, -⟩ | ⟨workspace, heq, -⟩
        · exact congrArg Except.error (Except.error.inj heq).symm
        · cases heq
      next hproper =>
        rw [if_neg hproper]
        rcases hworkspace with ⟨e, heq, -⟩ | ⟨workspace, heq, hheld⟩
        · cases heq
        · obtain rfl := Except.ok.inj heq
          obtain ⟨summary, u, hsession, hlast⟩ := goes_lift_bind_run_iff.mp hheld
          obtain ⟨rfl, rfl⟩ := goes_pure_run_iff.mp hlast
          exact ⟨summary, rfl, hsession⟩

/-- A batch is held to its end where it takes place, unless there is nothing to read or something is
missing. Before it nothing on the disk changes. -/
theorem applyInput_cases {r : Except Fault (Except Objection Summary)}
    (h : (applyInput s o).run.Goes (World.turns test) w r w') :
    ∃ found u, o.source.read.run.Goes (World.turns test) w found u ∧ u.disk = w.disk ∧
      match found with
      | .error e => r = .error e
      | .ok (.error objection) => r = .ok (.error objection)
      | .ok (.ok text) =>
        match s.scene o w with
        | .error e => r = .error e
        | .ok (stores, workspace) => ∃ summary, r = .ok (.ok summary) ∧
          (workspace.hold stores (applyText (settingsOf o) (companyOf o) text)).Goes
            (World.turns test) u summary w' := by
  rcases goes_bind_run_iff.mp h with ⟨e, hsource, rfl⟩ | ⟨found, u, hsource, hfound⟩
  · exact ⟨_, _, hsource, World.disk_of_still (Source.still_read o.source) hsource, rfl⟩
  have hdisk := World.disk_of_still (Source.still_read o.source) hsource
  refine ⟨_, u, hsource, hdisk, ?_⟩
  cases found with
  | error objection => exact (goes_pure_run_iff.mp hfound).1
  | ok text =>
    rw [← Shared.scene_eq_of_disk_eq hdisk (World.surroundings_of_goes hsource)]
    exact eq_of_goes_scene hfound

theorem still_object (speaker : Text) (objection : Objection) : Still (object speaker objection) :=
  asks_bind (still_call rfl) fun _ => trivial

theorem still_fail (message : Text) : Still (fail message) :=
  asks_bind (still_call rfl) fun _ => trivial

section

variable {σ : Type} {step : Step Answer σ} {start ended : σ}

theorem exists_of_goes_runApply {r : Except Fault Nat}
    (h : (runApply s o).run.Goes step start r ended) :
    ∃ found u, (applyInput s o).run.Goes step start found u ∧
      ∃ rest : Routine (Except Fault Nat), Still rest ∧ rest.Goes step u r ended := by
  rcases goes_bind_run_iff.mp h with ⟨e, hinput, rfl⟩ | ⟨found, u, hinput, hrest⟩
  · exact ⟨_, _, hinput, pure (.error e), trivial, goes_pure_iff.mpr ⟨rfl, rfl⟩⟩
  refine ⟨_, u, hinput, _, ?_, hrest⟩
  cases found with
  | error objection => exact asks_lift_run (still_object _ _)
  | ok summary =>
    dsimp only
    split
    · exact trivial
    · exact asks_bind_run (asks_lift_run (still_call rfl)) fun _ => trivial

theorem exists_batch {line : List Text} {r : Except Fault Nat}
    (hline : Invocation.read line = .ok ⟨s, .apply o⟩)
    (h : (run line).run.Goes step start r ended) :
    ∃ found u, (applyInput s o).run.Goes step start found u ∧
      ∃ rest : Routine (Except Fault Nat), Still rest ∧ rest.Goes step u r ended := by
  rw [run, hline] at h
  rcases goes_tryCatch_run_iff.mp h with ⟨status, happly, rfl⟩ | ⟨e, v, happly, hhandled⟩
  · exact exists_of_goes_runApply happly
  · obtain ⟨found, u, hinput, rest, hstill, hrest⟩ := exists_of_goes_runApply happly
    refine ⟨found, u, hinput, rest >>= fun _ => _, asks_bind hstill fun _ => ?_,
      goes_bind_iff.mpr ⟨_, v, hrest, hhandled⟩⟩
    split
    · exact asks_bind_run (asks_lift_run (still_call rfl)) fun _ => asks_lift_run (still_fail _)
    · exact trivial

end

theorem eq_ok_of_goes_write {path : Text} {content old : Bytes} {r : Except Fault Unit}
    (hproper : Path.holdsNull path = false) (hread : w.disk.read path = .ok old)
    (h : (Machine.write path content).run.Goes (World.turns test) w r w') :
    r = .ok () ∧ w'.disk.read path = .ok content := by
  obtain ⟨-, now, hhost, -⟩ := goes_question_iff.mp h
  obtain ⟨disk, hwrite⟩ := Disk.write_of_read hread now content
  have hchange : World.host (.write path content) { w with now } = (.ok (), { w with disk, now }) :=
    World.change_eq_ok_iff.mpr ⟨hproper, disk, hwrite, rfl⟩
  rw [hchange, Prod.mk.injEq] at hhost
  obtain ⟨rfl, hw⟩ := hhost
  obtain rfl : disk = w'.disk := congrArg World.disk hw
  exact ⟨rfl, Disk.read_of_write hwrite⟩

theorem eq_ok_of_goes_restore {ref target content : Text} {old : Bytes} {r : Except Fault Unit}
    (htext : World.textAt w.disk ref = .ok content) (hproper : Path.holdsNull target = false)
    (hread : w.disk.read target = .ok old)
    (h : (Backup.restore ref target).run.Goes (World.turns test) w r w') :
    r = .ok () ∧ w'.disk.read target = .ok (Utf8.encode content) := by
  have hcontent : ∀ {r' u}, (Backup.read ref).run.Goes (World.turns test) w r' u →
      r' = .ok content ∧ u = w := by
    intro r' u hgoes
    obtain ⟨found, hfound, rfl⟩ := goes_adapt_run_iff.mp hgoes
    obtain ⟨rfl, rfl⟩ := eq_of_goes_readText hfound
    rw [htext]
    exact ⟨rfl, rfl⟩
  rcases goes_bind_of_eq hcontent h with ⟨e, hfailed, -⟩ | ⟨found, hok, hrest⟩
  · cases hfailed
  obtain rfl := Except.ok.inj hok
  have hwritten : ∀ {r' v}, (Backup.refused (Fault.backupNotRestored ref target)
      (Machine.writeText target content)).run.Goes (World.turns test) w r' v →
      r' = .ok () ∧ v.disk.read target = .ok (Utf8.encode content) := by
    intro r' v hgoes
    obtain ⟨done, hdone, rfl⟩ := goes_adapt_run_iff.mp hgoes
    obtain ⟨rfl, hdisk⟩ := eq_ok_of_goes_write hproper hread hdone
    exact ⟨rfl, hdisk⟩
  rcases goes_bind_run_iff.mp hrest with ⟨e, hfailed, -⟩ | ⟨⟨⟩, v, hwrite, hlog⟩
  · cases (hwritten hfailed).1
  obtain ⟨⟨⟩, hlogged, hr⟩ := goes_lift_run_iff.mp hlog
  refine ⟨hr, ?_⟩
  rw [World.disk_of_still (still_call rfl) hlogged]
  exact (hwritten hwrite).2

theorem eq_of_goes_entries {place : Text} {items : List Json.Value}
    {r : Except Fault (List HistoryEntry)} (hplace : s.place w.homes = .ok place)
    (hitems : Ledger.itemsIn w.nesting w.disk (Path.join place historyFileName) = .ok items)
    (htextual : Ledger.Textual items) (h : s.entries.run.Goes (World.turns test) w r w') :
    r = .ok (Ledger.standingOn w.disk items) ∧ w'.disk = w.disk := by
  have hledger : ∀ {r u}, s.ledger.run.Goes (World.turns test) w r u →
      r = .ok (storesIn s.maxHistory place).ledger ∧ u = w := by
    intro r u hgoes
    rw [Shared.place] at hplace
    rcases goes_bind_of_eq eq_of_goes_folder hgoes with ⟨e, heq, -⟩ | ⟨folder, heq, hgoes⟩
    · rw [heq] at hplace
      cases hplace
    · rw [heq] at hplace
      obtain ⟨rfl, rfl⟩ := eq_of_goes_ledgerIn hgoes
      rw [Except.bind] at hplace
      rw [hplace]
      exact ⟨rfl, rfl⟩
  rcases goes_bind_of_eq hledger h with ⟨e, heq, -⟩ | ⟨l, heq, hrest⟩
  · cases heq
  obtain rfl := Except.ok.inj heq
  obtain ⟨⟨result, l'⟩, v, hentries, hlast⟩ := goes_lift_bind_run_iff.mp hrest
  obtain ⟨rfl, -, hdisk⟩ := Ledger.eq_of_goes_entries rfl hitems htextual hentries
  obtain ⟨rfl, rfl⟩ := goes_pure_run_iff.mp hlast
  exact ⟨rfl, hdisk⟩

theorem restores_of_goes_runRevert {place path ref description timestamp content : Text}
    {items : List Json.Value} {old : Bytes} {others : List HistoryEntry} {r : Except Fault Nat}
    (hplace : s.place w.homes = .ok place)
    (hitems : Ledger.itemsIn w.nesting w.disk (Path.join place historyFileName) = .ok items)
    (htextual : Ledger.Textual items)
    (hnewest : Ledger.standingOn w.disk items = .ofTexts path ref description timestamp :: others)
    (htext : World.textAt w.disk ref = .ok content) (hproper : Path.holdsNull path = false)
    (hread : w.disk.read path = .ok old)
    (h : (runRevert s (some 1)).run.Goes (World.turns test) w r w') :
    r = .ok 0 ∧ w'.disk.read path = .ok (Utf8.encode content) := by
  rcases goes_bind_run_iff.mp h with ⟨e, hentries, -⟩ | ⟨entries, u, hentries, hrest⟩
  · cases (eq_of_goes_entries hplace hitems htextual hentries).1
  obtain ⟨hok, hdisk⟩ := eq_of_goes_entries hplace hitems htextual hentries
  obtain rfl := Except.ok.inj hok
  rw [hnewest] at hrest
  rw [← hdisk] at htext hread
  have hrestored : ∀ {r' v},
      (restoreEntry (.ofTexts path ref description timestamp)).run.Goes (World.turns test) u r' v →
      r' = .ok () ∧ v.disk.read path = .ok (Utf8.encode content) := by
    intro r' v hgoes
    exact eq_ok_of_goes_restore htext hproper hread hgoes
  -- nothing that is restored or printed here can end in a fault, so no fault is handled
  change (tryCatch _ _ : Errand Nat).run.Goes _ _ _ _ at hrest
  rcases goes_tryCatch_run_iff.mp hrest with ⟨status, hdone, hr⟩ | ⟨e, v, hfailed, -⟩
  · rcases goes_bind_run_iff.mp hdone with ⟨e, -, heq⟩ | ⟨⟨⟩, v, hrestore, htold⟩
    · cases heq
    obtain ⟨⟨⟩, x, hprint, hlast⟩ := goes_lift_bind_run_iff.mp htold
    obtain ⟨hok, rfl⟩ := goes_pure_run_iff.mp hlast
    rw [World.disk_of_still (still_call rfl) hprint]
    exact ⟨hr.trans hok, (hrestored hrestore).2⟩
  · rcases goes_bind_run_iff.mp hfailed with ⟨e', hrestore, -⟩ | ⟨⟨⟩, x, -, htold⟩
    · cases (hrestored hrestore).1
    · obtain ⟨⟨⟩, y, -, hlast⟩ := goes_lift_bind_run_iff.mp htold
      cases (goes_pure_run_iff.mp hlast).1

theorem carries_of_goes_run {line : List Text} {invocation : Invocation} {status : Nat}
    {P : World → Prop} {r : Except Fault Nat} (hline : Invocation.read line = .ok invocation)
    (hends : ∀ {r' u}, invocation.carryOut.run.Goes (World.turns test) w r' u →
      r' = .ok status ∧ P u)
    (h : (run line).run.Goes (World.turns test) w r w') : r = .ok status ∧ P w' := by
  rw [run, hline] at h
  rcases goes_tryCatch_run_iff.mp h with ⟨found, hdone, hr⟩ | ⟨e, u, hfailed, -⟩
  · obtain ⟨hok, hworld⟩ := hends hdone
    exact ⟨hr.trans hok, hworld⟩
  · cases (hends hfailed).1

end CodeGraft.Command
