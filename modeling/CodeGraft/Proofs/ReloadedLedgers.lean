import CodeGraft.Proofs.Ledgers

/-!
# Ledgers that are read again

What a ledger has in mind is what a new one reads from its file, but for entries whose backups are
gone. That holds after anything that the ledger was asked to do, and whatever else happens on the
machine in between, as long as nobody else writes the file and no backup comes back.
-/

namespace CodeGraft

open Text Dialogue Disk

namespace Ledger

variable {test : Call → World → Bool} {w w' : World} {l l' : Ledger}

/-! ### What a ledger has in mind -/

def entriesOf (items : List Json.Value) : List HistoryEntry :=
  items.filterMap fun
    | .object fields => some (HistoryEntry.ofValue (.object fields))
    | _ => none

theorem standingOn_eq_filter (d : Disk) (items : List Json.Value) :
    standingOn d items = (entriesOf items).filter (standsOn d) := by
  induction items with
  | nil => rfl
  | cons item items ih =>
    cases item with
    | object fields =>
      rw [standingOn, ih]
      simp [entriesOf, List.filter_cons]
    | _ => exact ih

theorem textual_entriesOf {items : List Json.Value} (h : Textual items) :
    ∀ e ∈ entriesOf items, e.IsTextual := by
  intro e he
  obtain ⟨item, hitem, heq⟩ := List.mem_filterMap.mp he
  cases item with
  | object fields =>
    obtain rfl := Option.some.inj heq
    exact h fields hitem
  | _ => cases heq

/-- Something that a ledger is asked to do. -/
inductive Order where
  | record (entry : HistoryEntry)
  | clear
  | entries

namespace Order

def work : Order → Work Unit
  | record entry => do let _ ← Ledger.record entry
  | clear => Ledger.clear
  | entries => do let _ ← Ledger.entries

/-- Whether an order makes a ledger write its file. -/
def saves : Order → Bool
  | record entry => entry.filePath.isFilled && entry.backupRef.isFilled
  | clear => true
  | entries => false

def IsTextual : Order → Prop
  | record entry => entry.IsTextual
  | _ => True

end Order

/-- What a ledger has gone through since some state: the orders that it was given, and what else has
happened on the machine. Nobody else has written its file, of the earlier entries no backup has come
back, and what is read may be nested as deep as before. -/
inductive Passes (earlier : List HistoryEntry) (first : Ledger) (begun : World) :
    List Order → Ledger → World → Prop
  | start : Passes earlier first begun [] first begun
  | ordered {orders : List Order} {order : Order} {l l' : Ledger} {w w' : World}
      {r : Except Fault Unit} (h : Passes earlier first begun orders l w)
      (htextual : order.IsTextual)
      (hgoes : (order.work.run.run l).Goes World.granting w (r, l') w')
      (hgone : ∀ e ∈ earlier, standsOn w'.disk e = true → standsOn w.disk e = true) :
      Passes earlier first begun (orders ++ [order]) l' w'
  | elsewhere {orders : List Order} {l : Ledger} {w w' : World}
      (h : Passes earlier first begun orders l w)
      (hread : w'.disk.read l.path = w.disk.read l.path) (hnesting : w'.nesting = w.nesting)
      (hgone : ∀ e ∈ earlier, standsOn w'.disk e = true → standsOn w.disk e = true) :
      Passes earlier first begun orders l w'

/-- How what a ledger has in mind goes with its file, which has held some items at first. -/
inductive Recalls (items : List Json.Value) (saved : Bool) (l : Ledger) (levels : NestingLimit)
    (d : Disk) : Prop
  /-- The file is still to be read. -/
  | unread (hsaved : saved = false) (hknown : l.known = none)
      (hitems : itemsIn levels d l.path = .ok items)
  /-- The file was read, and holds all that stands by now. -/
  | seen (hsaved : saved = false) (stood : HistoryEntry → Bool)
      (hknown : l.known = some ((entriesOf items).filter stood))
      (hstood : ∀ e ∈ entriesOf items, standsOn d e = true → stood e = true)
      (hitems : itemsIn levels d l.path = .ok items)
  /-- The file was written. -/
  | written (es : List HistoryEntry) (hknown : l.known = some es)
      (htextual : ∀ e ∈ es, e.IsTextual) (htext : World.textAt d l.path = .ok (render es))

namespace Recalls

variable {items : List Json.Value} {saved : Bool} {levels : NestingLimit} {d d' : Disk}

theorem exists_items (h : Recalls items saved l levels d) (htextual : Textual items) :
    ∃ found, itemsIn levels d l.path = .ok found ∧ Textual found := by
  cases h with
  | unread _ _ hitems => exact ⟨items, hitems, htextual⟩
  | seen _ _ _ _ hitems => exact ⟨items, hitems, htextual⟩
  | written es _ hes htext =>
    rw [itemsIn, htext, itemsOfText_render levels hes]
    exact ⟨_, rfl, textual_map_toValue hes⟩

theorem textual_view (h : Recalls items saved l levels d) (htextual : Textual items) :
    ∀ e ∈ l.view levels d, e.IsTextual := by
  cases h with
  | unread _ hknown hitems =>
    rw [view_of_unknown hknown hitems]
    exact textual_standingOn htextual d
  | seen _ stood hknown _ _ =>
    rw [view, hknown]
    exact fun e he => textual_entriesOf htextual e (List.mem_filter.mp he).1
  | written es hknown hes _ =>
    rw [view, hknown]
    exact hes

/-- A new ledger reads what this one has in mind, but for entries whose backups are gone. -/
theorem standingOn_items (h : Recalls items saved l levels d) {found : List Json.Value}
    (hfound : itemsIn levels d l.path = .ok found) :
    standingOn d found = (l.view levels d).filter (standsOn d) := by
  cases h with
  | unread _ hknown _ =>
    rw [view_of_unknown hknown hfound, standingOn_eq_filter, List.filter_filter]
    simp
  | seen _ stood hknown hstood hitems =>
    obtain rfl := Except.ok.inj (hitems.symm.trans hfound)
    rw [view, hknown, standingOn_eq_filter, Option.getD_some, List.filter_filter]
    refine List.filter_congr fun e he => ?_
    cases hstands : standsOn d e with
    | false => rfl
    | true => simp [hstood e he hstands]
  | written es hknown hes htext =>
    rw [itemsIn, htext, itemsOfText_render levels hes] at hfound
    obtain rfl := Except.ok.inj hfound
    rw [view, hknown, standingOn_map_toValue]
    rfl

theorem parse_eq (h : Recalls items true l levels d) :
    (World.textAt d l.path).toOption.map (Json.Value.parse levels.1) =
      some (.ok (.list ((l.view levels d).map HistoryEntry.toValue))) := by
  cases h with
  | unread hsaved => cases hsaved
  | seen hsaved => cases hsaved
  | written es hknown hes htext =>
    rw [htext, view, hknown]
    exact congrArg some (parse_render levels hes)

theorem of_read_eq (h : Recalls items saved l levels d) (hread : d'.read l.path = d.read l.path)
    (hgone : ∀ e ∈ entriesOf items, standsOn d' e = true → standsOn d e = true) :
    Recalls items saved l levels d' := by
  have htext : World.textAt d' l.path = World.textAt d l.path := by
    rw [World.textAt, hread, World.textAt]
  have hitems : itemsIn levels d' l.path = itemsIn levels d l.path := by
    rw [itemsIn, htext, itemsIn]
  cases h with
  | unread hsaved hknown hfirst => exact .unread hsaved hknown (hitems.trans hfirst)
  | seen hsaved stood hknown hstood hfirst =>
    exact .seen hsaved stood hknown (fun e he hstands => hstood e he (hgone e he hstands))
      (hitems.trans hfirst)
  | written es hknown hes hwritten => exact .written es hknown hes (htext.trans hwritten)

theorem read (h : Recalls items saved l levels d) :
    Recalls items saved { l with known := some (l.view levels d) } levels d := by
  cases h with
  | unread hsaved hknown hitems =>
    refine .seen hsaved (standsOn d) ?_ (fun _ _ hstands => hstands) hitems
    rw [view_of_unknown hknown hitems, standingOn_eq_filter]
  | seen hsaved stood hknown hstood hitems =>
    exact .seen hsaved stood (by rw [view, hknown]; rfl) hstood hitems
  | written es hknown hes htext => exact .written es (by rw [view, hknown]; rfl) hes htext

theorem of_read_ok {es : List HistoryEntry} (hproper : Path.holdsNull l.path = false)
    (hes : ∀ e ∈ es, e.IsTextual) (hread : d.read l.path = .ok (Utf8.encode (render es))) :
    Recalls items saved { l with known := some es } levels d :=
  .written es rfl hes (World.textAt_eq_ok_iff.mpr ⟨hproper, _, hread, textOf_render hes⟩)

theorem ordered {order : Order} {r : Except Fault Unit}
    (h : Recalls items saved l w.nesting w.disk) (htextual : Textual items)
    (horder : order.IsTextual)
    (hgoes : (order.work.run.run l).Goes World.granting w (r, l') w') :
    l'.path = l.path ∧ Recalls items (saved || order.saves) l' w'.nesting w'.disk := by
  have hreadable : l.IsReadable w.nesting w.disk := fun _ => h.exists_items htextual
  rw [World.surroundings_of_goes hgoes]
  cases order with
  | record entry =>
    have hgoes : ∃ found,
        ((Ledger.record entry).run.run l).Goes World.granting w (found, l')
          w' := by
      rcases goes_bind_work_iff.mp hgoes with ⟨e, hrecord, -⟩ | ⟨found, k, u, hrecord, hlast⟩
      · exact ⟨_, hrecord⟩
      · obtain ⟨⟨-, rfl⟩, rfl⟩ := goes_pure_work_iff.mp hlast
        exact ⟨_, hrecord⟩
    obtain ⟨found, hrecord⟩ := hgoes
    by_cases hfilled : entry.filePath.isFilled = true ∧ entry.backupRef.isFilled = true
    · obtain ⟨now, -, rfl, hproper, hread, -⟩ :=
        granted_record_stamped hreadable hfilled.1 hfilled.2 hrecord
      refine ⟨rfl, of_read_ok hproper (fun e he => ?_) hread⟩
      rcases List.mem_cons.mp (List.mem_of_mem_take he) with rfl | he
      · exact horder.stamped _
      · exact h.textual_view htextual e he
    · obtain ⟨-, rfl, rfl⟩ := eq_of_goes_record_of_empty hfilled hrecord
      have hunsaved : (Order.record entry).saves = false := by
        simpa [Order.saves] using hfilled
      rw [hunsaved, Bool.or_false]
      exact ⟨rfl, h⟩
  | clear =>
    change ((modify _ >>= fun _ => save : Work Unit).run.run l).Goes _ _ _ _ at hgoes
    rw [goes_modify_bind_work_iff] at hgoes
    obtain ⟨-, rfl, hproper, hread, -⟩ := granted_save hgoes
    exact ⟨rfl, of_read_ok hproper (by simp) hread⟩
  | entries =>
    have hloaded :
        l' = { l with known := some (l.view w.nesting w.disk) } ∧ w'.disk = w.disk := by
      rcases goes_bind_work_iff.mp hgoes with ⟨e, hentries, -⟩ | ⟨found, k, u, hentries, hlast⟩
      · exact (eq_view_of_goes_entries hreadable hentries).2
      · obtain ⟨⟨-, rfl⟩, rfl⟩ := goes_pure_work_iff.mp hlast
        exact (eq_view_of_goes_entries hreadable hentries).2
    obtain ⟨rfl, hdisk⟩ := hloaded
    rw [hdisk, Order.saves, Bool.or_false]
    exact ⟨rfl, h.read⟩

/-- Whatever a ledger has gone through, what it has in mind goes with its file. -/
theorem of_passes {orders : List Order} {path : Text} {limit : Int} {begun : World}
    (hitems : itemsIn begun.nesting begun.disk path = .ok items) (htextual : Textual items)
    (h : Passes (entriesOf items) ⟨path, limit, none⟩ begun orders l w) :
    l.path = path ∧ Recalls items (orders.any Order.saves) l w.nesting w.disk := by
  induction h with
  | start => exact ⟨rfl, .unread rfl rfl hitems⟩
  | ordered _ horder hgoes _ ih =>
    obtain ⟨hpath, hrecalls⟩ := ih.2.ordered htextual horder hgoes
    rw [List.any_append]
    exact ⟨hpath.trans ih.1, by simpa using hrecalls⟩
  | elsewhere _ hread hnesting hgone ih =>
    rw [hnesting]
    exact ⟨ih.1, ih.2.of_read_eq hread hgone⟩

end Recalls

/-- What a ledger has in mind is what a new one reads from its file, but for entries whose backups
are gone; and once it has written the file, the file holds these entries field for field. -/
theorem load_eq_filter_entries {path : Text} {limit limit' : Int} {begun : World}
    {items : List Json.Value} {orders : List Order}
    (hitems : itemsIn begun.nesting begun.disk path = .ok items) (htextual : Textual items)
    (h : Passes (entriesOf items) ⟨path, limit, none⟩ begun orders l w) :
    ∃ es, (Dialogue.run World.host (entries.run.run l) w).1.1 = .ok es ∧
      (Dialogue.run World.host (load.run.run ⟨path, limit', none⟩) w).1.1 =
        .ok (es.filter (standsOn w.disk)) ∧
      (orders.any Order.saves = true →
        (World.textAt w.disk path).toOption.map (Json.Value.parse w.nesting.1) =
          some (.ok (.list (es.map HistoryEntry.toValue)))) := by
  obtain ⟨rfl, hrecalls⟩ := Recalls.of_passes hitems htextual h
  have hreadable := hrecalls.exists_items htextual
  have hentries := World.goes_turns (goes_run World.host (entries.run.run l) w)
  have hload := World.goes_turns (goes_run World.host (load.run.run ⟨l.path, limit', none⟩) w)
  have hview := eq_view_of_goes_entries (fun _ => hreadable) hentries
  refine ⟨l.view w.nesting w.disk, hview.1, ?_, fun hsaved => ?_⟩
  · obtain ⟨found, hfound, hfoundTextual⟩ := hreadable
    rw [← hrecalls.standingOn_items hfound]
    exact (eq_of_goes_load (l := ⟨l.path, limit', none⟩) hfound hfoundTextual hload).1
  · rw [hsaved] at hrecalls
    exact hrecalls.parse_eq

def firstEntry : HistoryEntry := .ofTexts "/ws/a.js" "/b/1.bak" "first" "2024"

def secondEntry : HistoryEntry := .ofTexts "/ws/ä.js" "/b/2.bak" "a \"😀\"\r\n" ""

def withBackups : World where
  disk :=
    { nodes := [(["b"], .folder),
        (["b", "1.bak"], .file [] ⟨2024, 1, 2, 3, 4, 5, 6⟩),
        (["b", "2.bak"], .file [] ⟨2024, 1, 2, 3, 4, 5, 6⟩),
        (["b", "history.json"],
          .file (Utf8.encode (render [firstEntry])) ⟨2024, 1, 2, 3, 4, 5, 6⟩)] }
  now := ⟨2024, 1, 2, 3, 4, 5, 6⟩

/-- The ledger and the machine after the second change is recorded and the first backup is gone. -/
def afterLoss : Ledger × World :=
  let recorded := Dialogue.run World.host
    ((Order.record secondEntry).work.run.run ⟨"/b/history.json", 5, none⟩) withBackups
  (recorded.1.2,
    { recorded.2.1 with disk := recorded.2.1.disk.eraseTree ["b", "1.bak"] })

theorem passes_afterLoss :
    Passes (entriesOf [firstEntry.toValue]) ⟨"/b/history.json", 5, none⟩ withBackups
      ([] ++ [.record secondEntry]) afterLoss.1 afterLoss.2 := by
  have hrecorded : ((Order.record secondEntry).work.run.run ⟨"/b/history.json", 5, none⟩).Goes
      World.granting withBackups _ _ :=
    World.goes_turns (goes_steps_iff.mpr ⟨rfl, rfl, by decide +kernel⟩)
  refine .elsewhere (.ordered .start ⟨_, _, _, _, rfl⟩ hrecorded ?_) ?_ rfl ?_
  · decide +kernel
  · decide +kernel
  · decide +kernel

theorem textual_firstEntry : ∀ e ∈ [firstEntry], e.IsTextual := by
  simp only [List.mem_singleton, forall_eq]
  exact ⟨_, _, _, _, rfl⟩

/-- With the first backup one of two entries is gone for those who read the ledger again. -/
theorem load_eq_filter_entries_of_loss :
    let known := (Dialogue.run World.host (entries.run.run afterLoss.1) afterLoss.2).1.1
    let loaded := (Dialogue.run World.host (load.run.run ⟨"/b/history.json", 1, none⟩)
      afterLoss.2).1.1
    itemsIn withBackups.nesting withBackups.disk "/b/history.json" = .ok [firstEntry.toValue] ∧
      known.toOption.map (List.map (·.backupRef.shown)) =
        some ["/b/2.bak".toList, "/b/1.bak".toList] ∧
      loaded.toOption.map (List.map (·.backupRef.shown)) = some ["/b/2.bak".toList] ∧
      ∃ es, known = .ok es ∧ loaded = .ok (es.filter (standsOn afterLoss.2.disk)) ∧
        (World.textAt afterLoss.2.disk "/b/history.json").toOption.map
            (Json.Value.parse afterLoss.2.nesting.1) =
          some (.ok (.list (es.map HistoryEntry.toValue))) := by
  have hread : withBackups.disk.read "/b/history.json" =
      .ok (Utf8.encode (render [firstEntry])) := by decide +kernel
  have hitems := itemsIn_of_read withBackups.nesting rfl hread textual_firstEntry
  refine ⟨hitems, by decide +kernel, by decide +kernel, ?_⟩
  obtain ⟨es, hes, hload, hwritten⟩ :=
    load_eq_filter_entries hitems (textual_map_toValue textual_firstEntry) passes_afterLoss
  exact ⟨es, hes, hload, hwritten rfl⟩

end Ledger

end CodeGraft
