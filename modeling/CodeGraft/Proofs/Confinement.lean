import CodeGraft.Proofs.NormalPaths
import CodeGraft.Proofs.Touches

/-!
# Where a closed workspace lets a session write

A closed workspace refuses every path that leads out of its folder. So a session that works in it
changes nothing outside of the folder, whatever the text and the settings; only when the folder is
missing are the folders on the way to it made first. The stores have places of their own, and what
they do there is not held against the session.
-/

namespace CodeGraft

open Text Dialogue Session

namespace Disk

def SameOutside (folder : Place) (d d' : Disk) : Prop :=
  ∀ place, ¬ folder <+: place → d'.node? place = d.node? place

/-- Nothing has changed outside of a folder, but folders that were missing on the way to it may have
been made. -/
def KeepsOutside (folder : Place) (d d' : Disk) : Prop :=
  ∀ place, ¬ folder <+: place → d'.node? place = d.node? place ∨
    (place <+: folder ∧ d.node? place = none ∧ d'.node? place = some .folder)

section

variable {folder : Place} {d d' d'' : Disk}

theorem KeepsOutside.refl (folder : Place) (d : Disk) : KeepsOutside folder d d :=
  fun _ _ => .inl rfl

theorem KeepsOutside.trans (h : KeepsOutside folder d d') (h' : KeepsOutside folder d' d'') :
    KeepsOutside folder d d'' := by
  intro place hout
  rcases h place hout with heq | ⟨hway, hnone, hmade⟩
  · rw [← heq]
    exact h' place hout
  · rcases h' place hout with heq | ⟨-, hnone', -⟩
    · exact .inr ⟨hway, hnone, heq.trans hmade⟩
    · rw [hmade] at hnone'
      cases hnone'

theorem KeepsOutside.same (h : KeepsOutside folder d d')
    (hway : ∀ place, place <+: folder → d.node? place = some .folder) :
    SameOutside folder d d' := by
  intro place hout
  rcases h place hout with heq | ⟨hplace, hnone, -⟩
  · exact heq
  · rw [hway place hplace] at hnone
    cases hnone

end

theorem folder_of_walk_append {d : Disk} {here place : Place} {front rest : List Text} {part : Text}
    (h : d.walk here (front ++ part :: rest) = .ok place) :
    d.node? (front.foldl step here) = some .folder := by
  induction front generalizing here with
  | nil =>
    rw [List.nil_append, walk] at h
    split at h
    · cases h
    · cases h
    next hfolder => exact hfolder
  | cons first front ih =>
    rw [List.cons_append, walk] at h
    split at h
    · cases h
    · cases h
    · split at h
      · cases h
      · exact ih h

theorem folder_on_way {d : Disk} {path : Text} {folder : Place} (hpath : Path.Spells path folder)
    (h : d.isFolder path = true) : ∀ place, place <+: folder → d.node? place = some .folder := by
  intro place hplace
  have hnode : d.nodeAt path = .ok .folder := by
    cases hat : d.nodeAt path with
    | error e => simp [isFolder, hat, Except.toOption] at h
    | ok node => simpa [isFolder, hat, Except.toOption] using h
  obtain ⟨found, hfound, hfolder, -⟩ := exists_of_nodeAt hnode
  obtain rfl : found = folder := (eq_of_placeOf hfound).trans (hpath.destination_eq _)
  obtain ⟨rest, rfl⟩ := hplace
  cases rest with
  | nil => rwa [List.append_nil] at hfolder
  | cons part rest =>
    unfold placeOf at hfound
    split at hfound
    · cases hfound
    · split at hfound
      · cases hfound
      · rw [hpath.filter_splitOn, if_pos hpath.isAbsolute_eq] at hfound
        have hnames : ∀ n ∈ place, IsName n := fun n hn => hpath.names n (by simp [hn])
        have hwalked := folder_of_walk_append hfound
        rwa [Path.foldl_step_names [] hnames] at hwalked

end Disk

/-- A call that writes and removes nothing outside of a folder, and makes no folders but those in it
and those on the way to it. -/
def Call.StaysIn (folder : Place) : Call → Prop
  | .write path _ => ∃ place, Path.Spells path place ∧ folder <+: place
  | .makeFolder path => ∃ place, Path.Spells path place ∧ (folder <+: place ∨ place <+: folder)
  | .remove _ => False
  | _ => True

namespace World

open Disk

variable {folder : Place} {w w' : World}

theorem keepsOutside_of_write {path : Text} {place : Place} {now : Instant} {content : Bytes}
    {d d' : Disk} (hpath : Path.Spells path place) (hin : folder <+: place)
    (h : d.write now path content = .ok d') : KeepsOutside folder d d' := by
  intro p hout
  obtain ⟨found, hfound, hne, -, -, rfl⟩ := exists_of_write h
  obtain rfl : found = place := (eq_of_placeOf hfound).trans (hpath.destination_eq _)
  have hother : p ≠ found := by
    rintro rfl
    exact hout hin
  rw [node?_put _ _ _ hne, if_neg hother]
  exact .inl rfl

theorem keepsOutside_of_makeFolder {path : Text} {place : Place} {d d' : Disk}
    (hpath : Path.Spells path place) (hplace : folder <+: place ∨ place <+: folder)
    (h : d.makeFolder path = .ok d') : KeepsOutside folder d d' := by
  intro p hout
  obtain ⟨found, hfound, hne, hnone, rfl⟩ := exists_of_makeFolder h
  obtain rfl : found = place := (eq_of_placeOf hfound).trans (hpath.destination_eq _)
  rw [node?_put _ _ _ hne]
  by_cases hp : p = found
  · subst hp
    rw [if_pos rfl]
    exact .inr ⟨hplace.resolve_left hout, hnone, rfl⟩
  · rw [if_neg hp]
    exact .inl rfl

/-- Calls that stay in a folder keep to it on every machine, also if they fail. -/
theorem Falters.keepsOutside {c : Call} {r : Answer c} (hc : c.StaysIn folder)
    (h : Falters c w r w') : KeepsOutside folder w.disk w'.disk := by
  by_cases hstill : c.isStill = true
  · rw [h.disk_eq hstill]
    exact .refl _ _
  cases c with
  | write path content =>
    obtain ⟨place, hpath, hin⟩ := hc
    obtain ⟨-, hdisk⟩ | ⟨now, part, hwrite, -⟩ := h.write_cases
    · rw [hdisk]
      exact .refl _ _
    · exact keepsOutside_of_write hpath hin hwrite
  | makeFolder path =>
    obtain ⟨place, hpath, hplace⟩ := hc
    cases r with
    | ok => exact keepsOutside_of_makeFolder hpath hplace h.of_makeFolder
    | error e =>
      rw [h.disk_of_makeFolder_error]
      exact .refl _ _
  | remove path => exact hc.elim
  | _ => exact absurd rfl hstill

theorem keepsOutside_of_goes {α : Type} {step : Step Answer World} [Tame step] {d : Routine α} {a : α}
    (hd : d.Asks (Call.StaysIn folder)) (h : d.Goes step w a w') :
    KeepsOutside folder w.disk w'.disk :=
  h.invariant (I := fun u => KeepsOutside folder w.disk u.disk)
    (fun _ _ _ _ hc hstep hkeeps => hkeeps.trans ((Tame.falters hstep).keepsOutside hc)) hd
    (.refl _ _)

end World

theorem staysIn_makeLastFolder {folder place : Place} {path : Text} (hpath : Path.Spells path place)
    (hplace : folder <+: place ∨ place <+: folder) :
    (Machine.makeLastFolder path).run.Asks (Call.StaysIn folder) := by
  refine asks_tryCatch_run (asks_question ⟨place, hpath, hplace⟩) fun e => ?_
  split
  · refine asks_bind_run (asks_question trivial) fun found => ?_
    split <;> exact trivial
  · exact trivial

/-- The folders of a path stand on the way to its place. So if that lies in a folder or on the way
to it, they do too. -/
theorem staysIn_makeFoldersUpTo {folder place : Place} {path : Text} (bound : Nat)
    (hpath : Path.Spells path place) (hplace : folder <+: place ∨ place <+: folder) :
    (Machine.makeFoldersUpTo bound path).run.Asks (Call.StaysIn folder) := by
  induction bound generalizing path place with
  | zero => exact trivial
  | succ bound ih =>
    rw [Machine.makeFoldersUpTo]
    dsimp only
    rcases List.eq_nil_or_concat place with rfl | ⟨above, name, hsplit⟩
    · have hname := hpath.parent_root
      rw [if_pos (by simp [hname])]
      exact staysIn_makeLastFolder hpath hplace
    · rw [List.concat_eq_append] at hsplit
      subst hsplit
      obtain ⟨-, hparent⟩ := hpath.parent
      have habove : folder <+: above ∨ above <+: folder := by
        rcases hplace with hin | hway
        · rcases List.prefix_concat_iff.mp hin with rfl | hin
          · exact .inr (List.prefix_append ..)
          · exact .inl hin
        · exact .inr ((List.prefix_append ..).trans hway)
      split
      · exact staysIn_makeLastFolder hpath hplace
      · refine asks_bind_run (asks_question trivial) fun stands => ?_
        split
        · exact staysIn_makeLastFolder hpath hplace
        · refine asks_bind_run (asks_tryCatch_run (ih hparent habove) fun e => ?_) fun _ => ?_
          · split <;> exact trivial
          · split
            · exact staysIn_makeLastFolder hpath hplace
            · exact trivial

/-! ### Requests -/

def Request.isStoring : Request → Bool
  | backup _ _ => true
  | record _ => true
  | _ => false

theorem Request.not_isStoring_of_isQuiet {q : Request} (h : q.isQuiet = true) :
    q.isStoring = false := by
  cases q <;> first | rfl | cases h

section

variable {settings : Settings} {company : Company} {xs : List (Exchange Reply)}

/-- Exchanges in which the stores are asked for nothing unless they are to keep something. -/
abbrev StoresOnly (settings : Settings) (company : Company) : List (Exchange Reply) → Prop :=
  Within fun q => !q.isStoring || (settings.backups && company.backups)

theorem Quiet.storesOnly (h : Quiet xs) : StoresOnly settings company xs := by
  intro x hx
  simp [Request.not_isStoring_of_isQuiet (h x hx)]

theorem Keeping.storesOnly {target existing how : Text}
    (h : Keeping settings company target existing how xs) : StoresOnly settings company xs := by
  cases h with
  | unasked => exact .nil
  | attempted hkeeps =>
    intro x _
    simp [hkeeps]

theorem Visit.storesOnly {block : Block} {target : Text} {result : BlockResult}
    (h : Visit settings company block target xs result) : StoresOnly settings company xs := by
  cases h with
  | idle _ hquiet => exact hquiet.storesOnly
  | creates _ _ _ hasked hfolder hlast =>
    refine .cons rfl (hasked.quiet.storesOnly.append ?_)
    refine .append ?_ (.cons rfl hlast.quiet.storesOnly)
    rcases hfolder with rfl | rfl
    · exact .nil
    · exact .cons rfl .nil
  | updates _ _ _ _ htold hasked hkeeping hlast =>
    refine .cons rfl (.cons rfl (htold.telling.quiet.storesOnly.append ?_))
    refine hasked.quiet.storesOnly.append (hkeeping.storesOnly.append ?_)
    exact .cons rfl hlast.quiet.storesOnly

theorem Course.storesOnly {block : Block} {result : BlockResult}
    (h : Course settings company block xs result) : StoresOnly settings company xs := by
  cases h with
  | unresolved hseek hlast =>
    exact (quiet_of_resolveTarget hseek).storesOnly.append hlast.quiet.storesOnly
  | resolved hseek hvisit =>
    exact (quiet_of_resolveTarget hseek).storesOnly.append hvisit.storesOnly

theorem Courses.storesOnly {blocks : List Block} {results : List BlockResult}
    (h : Courses settings company blocks xs results) : StoresOnly settings company xs := by
  induction h with
  | nil => exact .nil
  | cons hcourse _ ih => exact hcourse.storesOnly.append ih

theorem storesOnly_of_applyText {text : Text} {summary : Summary}
    (h : (applyText settings company text).Plays xs summary) : StoresOnly settings company xs := by
  have hnothing : ∀ {reason zs}, (nothingToApply settings reason).Plays zs summary →
      StoresOnly settings company zs := by
    intro reason zs hz
    refine within_of_bind (fun ys _ hy => (telling_of_tell hy).quiet.storesOnly) ?_ hz
    intro _ ys hy
    rw [(plays_pure_iff.mp hy).1]
    exact .nil
  unfold applyText at h
  split at h
  · exact hnothing h
  · refine within_of_bind (fun ys _ hy => (noting_of_logAll hy).telling.quiet.storesOnly) ?_ h
    intro _ zs hz
    generalize CodeGraft.blocks text = found at hz
    split at hz
    · exact hnothing hz
    · obtain ⟨ys, viewing, rfl, hcourses, hviewing⟩ := courses_of_applyBlocks hz
      exact hcourses.storesOnly.append hviewing.storesOnly

end

namespace LocalWorkspace

variable {w : LocalWorkspace} {step : Step Answer World}

/-- A closed workspace leads every path that it takes to a place in its folder. -/
theorem spells_of_absolutePath {path absolute : Text} (hclosed : w.isOpen = false)
    (hbase : Path.IsReal w.base) (h : w.absolutePath path = .ok absolute) :
    ∃ place, Path.Spells absolute place ∧ Path.parts w.base <+: place := by
  have hspells := Path.spells_normalize (Path.isAbsolute_join hbase.isAbsolute_eq path) []
  unfold absolutePath at h
  simp only [hclosed, Bool.false_or] at h
  split at h
  next hin =>
    cases h
    refine ⟨_, hspells, ?_⟩
    rw [← hspells.parts_eq]
    exact List.isPrefixOf_iff_prefix.mp hin
  next => cases h

theorem staysIn_withPath {α : Type} {path : Text} {act : Text → Errand α}
    (hclosed : w.isOpen = false) (hbase : Path.IsReal w.base)
    (hact : ∀ absolute place, Path.Spells absolute place → Path.parts w.base <+: place →
      (act absolute).run.Asks (Call.StaysIn (Path.parts w.base))) :
    (w.withPath path act).run.Asks (Call.StaysIn (Path.parts w.base)) := by
  unfold withPath
  split
  next absolute habsolute =>
    obtain ⟨place, hspells, hin⟩ := spells_of_absolutePath hclosed hbase habsolute
    exact hact absolute place hspells hin
  next => exact trivial

theorem keepsOutside_of_steps [World.Tame step] {q : Request} {r : Reply q} {before after : Stores × World}
    (hclosed : w.isOpen = false) (hbase : Path.IsReal w.base) (hq : q.isStoring = false)
    (h : w.steps step q before r after) :
    Disk.KeepsOutside (Path.parts w.base) before.2.disk after.2.disk := by
  by_cases heffect : q.isEffect = false
  · rw [(still_of_steps heffect h).1]
    exact .refl _ _
  cases q with
  | writeText path content =>
    refine World.keepsOutside_of_goes (staysIn_withPath hclosed hbase ?_) (goes_lift_iff.mp h).1
    intro absolute place hspells hin
    exact asks_question ⟨place, hspells, hin⟩
  | makeFolder path =>
    refine World.keepsOutside_of_goes (staysIn_withPath hclosed hbase ?_) (goes_lift_iff.mp h).1
    intro absolute place hspells hin
    exact staysIn_makeFoldersUpTo _ hspells (.inl hin)
  | backup => cases hq
  | record => cases hq
  | _ => exact absurd rfl heffect

theorem folder_of_steps [World.Tame step] {q : Request} {r : Reply q} {before after : Stores × World} {place : Place}
    (h : w.steps step q before r after) (hfolder : before.2.disk.node? place = some .folder) :
    after.2.disk.node? place = some .folder := by
  have hasks : ((w.reply q).run before.1).Asks (Call.Touches before.2.disk.current fun _ => True) :=
    asks_of_forall (fun c => by cases c <;> trivial) _
  exact (World.evolves_of_goes hasks h).folders place hfolder

/-- The steps of a session in a workspace, where the disk is kept in some way by each step but those
of the stores. These are asked only if they are to keep something. -/
def confined (w : LocalWorkspace) (step : Step Answer World) (storing : Bool)
    (keeps : Disk → Disk → Prop) : Step Reply (Stores × World) := fun q before r after =>
  w.steps step q before r after ∧
    if q.isStoring then storing = true else keeps before.2.disk after.2.disk

variable {storing : Bool} {keeps : Disk → Disk → Prop} {xs : List (Exchange Reply)}
  {before after : Stores × World}

theorem follows_confined {I : Stores × World → Prop}
    (hI : ∀ q s r t, I s → w.steps step q s r t → I t)
    (hkeeps : ∀ q s r t, I s → q.isStoring = false → w.steps step q s r t →
      keeps s.2.disk t.2.disk)
    (hstores : Within (fun q => !q.isStoring || storing) xs) (hbefore : I before)
    (h : Follows (w.steps step) before xs after) :
    Follows (w.confined step storing keeps) before xs after := by
  induction xs generalizing before with
  | nil => exact h
  | cons x xs ih =>
    obtain ⟨hx, hxs⟩ := List.forall_mem_cons.mp hstores
    obtain ⟨u, hstep, hrest⟩ := h
    refine ⟨u, ⟨hstep, ?_⟩, ih hxs (hI _ _ _ _ hbefore hstep) hrest⟩
    split
    next hstoring => simpa [hstoring] using hx
    next hstoring => exact hkeeps _ _ _ _ hbefore (Bool.eq_false_iff.mpr hstoring) hstep

theorem keepsOutside_of_confined {folder : Place}
    (h : Follows (w.confined step false (Disk.KeepsOutside folder)) before xs after) :
    Disk.KeepsOutside folder before.2.disk after.2.disk := by
  induction xs generalizing before with
  | nil =>
    rw [h]
    exact .refl _ _
  | cons x xs ih =>
    obtain ⟨u, ⟨-, hkeeps⟩, hrest⟩ := h
    split at hkeeps
    next => cases hkeeps
    next => exact hkeeps.trans (ih hrest)

/-- A closed workspace takes a path exactly if its normal form starts with the parts of the folder,
and it refuses every other one. So in a session for a text no step but those of the stores changes
anything outside of a folder that stands; on the way to one that is missing, folders may be made.
Without backups this holds of the session as a whole. The machine may falter, and its clock move. -/
theorem applyText_confined (hclosed : w.isOpen = false) (hbase : Path.IsReal w.base) :
    (∀ path, (∃ absolute, w.absolutePath path = .ok absolute ∧ Path.isAbsolute absolute = true ∧
        Path.normalize absolute = absolute ∧ Path.parts w.base <+: Path.parts absolute) ∨
      w.absolutePath path = .error (.outside path w.base)) ∧
    (∀ path, w.absolutePath path = .error (.outside path w.base) ↔
      ¬ Path.parts w.base <+: Path.parts (Path.normalize (Path.join w.base path))) ∧
    ∀ {step : Step Answer World} [World.Tame step] {settings : Settings} {company : Company}
      {text : Text} {stores : Stores} {world after : World} {summary : Summary},
      (w.hold stores (applyText settings company text)).Goes step world summary after →
      let storing := settings.backups && company.backups
      let session := applyText settings company text
      (∃ stores', session.Goes
        (w.confined step storing (Disk.KeepsOutside (Path.parts w.base)))
        (stores, world) summary (stores', after)) ∧
      (world.disk.isFolder w.base = true → ∃ stores', session.Goes
        (w.confined step storing (Disk.SameOutside (Path.parts w.base)))
        (stores, world) summary (stores', after)) ∧
      (storing = false → Disk.KeepsOutside (Path.parts w.base) world.disk after.disk ∧
        (world.disk.isFolder w.base = true →
          Disk.SameOutside (Path.parts w.base) world.disk after.disk)) := by
  refine ⟨fun path => ?_, fun path => ?_, ?_⟩
  · cases habsolute : w.absolutePath path with
    | ok absolute =>
      obtain ⟨place, hspells, hin⟩ := spells_of_absolutePath hclosed hbase habsolute
      refine .inl ⟨absolute, rfl, hspells.isAbsolute_eq, hspells.normalize_eq, ?_⟩
      rwa [hspells.parts_eq]
    | error fault =>
      right
      unfold absolutePath at habsolute
      simp only at habsolute
      split at habsolute
      next => cases habsolute
      next => exact habsolute.symm
  · unfold absolutePath
    simp only [hclosed, Bool.false_or, Path.isWithin, Path.absolute, List.isPrefixOf_iff_prefix]
    split
    next hin => simp [hin]
    next hout => simp [hout]
  · intro step _ settings company text stores world after summary hgoes storing session
    obtain ⟨stores', hsession⟩ := goes_hold_iff.mp hgoes
    obtain ⟨xs, hplays, hfollows⟩ := goes_iff_plays.mp hsession
    have hstores : StoresOnly settings company xs := storesOnly_of_applyText hplays
    have hconfined := follows_confined (I := fun _ => True) (fun _ _ _ _ _ _ => trivial)
      (fun _ _ _ _ _ hq hstep => keepsOutside_of_steps hclosed hbase hq hstep)
      hstores trivial hfollows
    refine ⟨⟨stores', goes_iff_plays.mpr ⟨xs, hplays, hconfined⟩⟩, fun hfolder => ?_,
      fun hnone => ?_⟩
    · have hsame := follows_confined
        (I := fun s => ∀ place, place <+: Path.parts w.base → s.2.disk.node? place = some .folder)
        (fun _ _ _ _ hway hstep place hplace => folder_of_steps hstep (hway place hplace))
        (fun _ _ _ _ hway hq hstep => (keepsOutside_of_steps hclosed hbase hq hstep).same hway)
        hstores (Disk.folder_on_way hbase.spells hfolder) hfollows
      exact ⟨stores', goes_iff_plays.mpr ⟨xs, hplays, hsame⟩⟩
    · rw [show (settings.backups && company.backups) = false from hnone] at hconfined
      have hkeeps := keepsOutside_of_confined hconfined
      exact ⟨hkeeps, fun hfolder => hkeeps.same (Disk.folder_on_way hbase.spells hfolder)⟩

/-- A machine with two folders, the name of one of which starts with that of the other. -/
def siblings : World where
  disk :=
    { nodes := [(["ws"], .folder), (["ws-evil"], .folder),
        (["ws-evil", "a.js"], .file (Utf8.encode "1") ⟨2024, 1, 2, 3, 4, 5, 6⟩)] }
  now := ⟨2024, 1, 2, 3, 4, 5, 6⟩

/-- A session that is to write into the other folder fails there, and writes its second file. -/
theorem applyText_confined_of_siblings :
    let w : LocalWorkspace := ⟨"/ws", false⟩
    let stores : Stores := ⟨⟨"/b", some 1, none⟩, ⟨"/b/history.json", 1, none⟩⟩
    let text : Text := "../ws-evil/a.js\n```js\n2\n```\n\nb.js\n```js\n3\n```\n"
    let (summary, after, _) := run World.host (w.hold stores (applyText {} {} text)) siblings
    w.isOpen = false ∧ Path.IsReal w.base ∧ siblings.disk.isFolder w.base = true ∧
      summary.results.map (·.status) = [.failed, .created] ∧
      after.disk.node? ["ws", "b.js"] = some (.file (Utf8.encode "3") siblings.now) ∧
      after.disk.node? ["ws-evil", "a.js"] = siblings.disk.node? ["ws-evil", "a.js"] := by
  intro w stores text
  have hbase : Path.IsReal w.base := ⟨by decide, by decide⟩
  have hfolder : siblings.disk.isFolder w.base = true := by decide +kernel
  have hwritten :
      (run World.host (w.hold stores (applyText {} {} text)) siblings).1.results.map (·.status) =
          [.failed, .created] ∧
        (run World.host (w.hold stores (applyText {} {} text)) siblings).2.1.disk.node?
          ["ws", "b.js"] = some (.file (Utf8.encode "3") siblings.now) := by
    decide +kernel
  obtain ⟨-, -, hconfined⟩ := applyText_confined (w := w) rfl hbase
  obtain ⟨-, -, hkeeps⟩ :=
    hconfined (goes_run World.host (w.hold stores (applyText {} {} text)) siblings)
  exact ⟨rfl, hbase, hfolder, hwritten.1, hwritten.2,
    (hkeeps rfl).2 hfolder ["ws-evil", "a.js"] (by decide)⟩

/-- Where the folder of a workspace is missing, a session makes the folder around it too. -/
theorem applyText_makes_folder_around :
    let w : LocalWorkspace := ⟨"/deep/ws", false⟩
    let stores : Stores := ⟨⟨"/b", some 1, none⟩, ⟨"/b/history.json", 1, none⟩⟩
    let world : World := { now := ⟨2024, 1, 2, 3, 4, 5, 6⟩ }
    let session := w.hold stores (applyText {} {} "x/a.js\n```js\n1\n```\n")
    let after := (run World.host session world).2.1
    w.isOpen = false ∧ Path.IsReal w.base ∧ ¬ Path.parts w.base <+: ["deep"] ∧
      world.disk.node? ["deep"] = none ∧ after.disk.node? ["deep"] = some .folder ∧
      after.disk.node? ["deep", "ws", "x", "a.js"] = some (.file (Utf8.encode "1") world.now) := by
  refine ⟨rfl, ⟨by decide, by decide⟩, by decide, by decide, ?_⟩
  decide +kernel

end LocalWorkspace

end CodeGraft
