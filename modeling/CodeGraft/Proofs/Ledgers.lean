import CodeGraft.History.Ledger
import CodeGraft.Proofs.JsonRoundTrip
import CodeGraft.Proofs.Newlines
import CodeGraft.Proofs.Touches

/-!
# Ledgers on a disk

What a ledger holds is read off the disk: the entries in its file whose backups stand. A ledger whose
entries hold texts only is written so that it is read back as it was.
-/

namespace CodeGraft

open Text Dialogue Disk

theorem Json.Value.isFilled_text {text : Text} (h : text ≠ []) :
    (Json.Value.text text).isFilled = true := by
  simpa [Json.Value.isFilled] using h

theorem Instant.extended_ne_nil (t : Instant) : t.extended ≠ [] := by
  simp [Instant.extended, glue]

def HistoryEntry.IsTextual (e : HistoryEntry) : Prop :=
  ∃ filePath ref description timestamp, e = .ofTexts filePath ref description timestamp

/-- The entry with a time, which is that of the clock if it has none. -/
def HistoryEntry.stamped (e : HistoryEntry) (now : Instant) : HistoryEntry :=
  if e.timestamp.isFilled then e else { e with timestamp := .text now.extended }

theorem HistoryEntry.stamped_of_isFilled {e : HistoryEntry} (h : e.timestamp.isFilled = true)
    (now : Instant) : e.stamped now = e := if_pos h

theorem HistoryEntry.IsTextual.stamped {e : HistoryEntry} (h : e.IsTextual) (now : Instant) :
    (e.stamped now).IsTextual := by
  obtain ⟨filePath, ref, description, timestamp, rfl⟩ := h
  unfold HistoryEntry.stamped
  split
  · exact ⟨_, _, _, _, rfl⟩
  · exact ⟨filePath, ref, description, now.extended, rfl⟩

theorem HistoryEntry.IsTextual.isPlain {e : HistoryEntry} (h : e.IsTextual) (levels : Nat) :
    e.toValue.IsPlain (levels + 1) := by
  obtain ⟨filePath, ref, description, timestamp, rfl⟩ := h
  refine ⟨by simp [HistoryEntry.ofTexts], ?_⟩
  simp [Json.Value.HoldPlain, Json.Value.IsPlain, HistoryEntry.ofTexts]

namespace Ledger

def itemsOf : Json.Value → List Json.Value
  | .list items => items
  | _ => []

/-- The items that a text holds. There are none in what is no text or no value; but a value that is
nested too deep is not passed over. -/
def itemsOfText (levels : NestingLimit) : Except Fault Text → Except Fault (List Json.Value)
  | .error _ => .ok []
  | .ok text =>
    match Json.Value.parse levels.1 text with
    | .ok value => .ok (itemsOf value)
    | .error .malformed => .ok []
    | .error (.tooDeep kind) => .error (.nestedTooDeep kind)

/-- The items in a ledger's file. -/
def itemsIn (levels : NestingLimit) (d : Disk) (path : Text) : Except Fault (List Json.Value) :=
  itemsOfText levels (World.textAt d path)

def Textual (items : List Json.Value) : Prop :=
  ∀ fields, .object fields ∈ items → (HistoryEntry.ofValue (.object fields)).IsTextual

def standsOn (d : Disk) (e : HistoryEntry) : Bool :=
  match e.backupRef with
  | .text ref => !ref.isEmpty && d.holds ref
  | _ => false

def standingOn (d : Disk) : List Json.Value → List HistoryEntry
  | [] => []
  | .object fields :: rest =>
    let entry := HistoryEntry.ofValue (.object fields)
    if standsOn d entry then entry :: standingOn d rest else standingOn d rest
  | _ :: rest => standingOn d rest

variable {test : Call → World → Bool} {w w' : World} {l l' : Ledger}

theorem Textual.tail {item : Json.Value} {items : List Json.Value} (h : Textual (item :: items)) :
    Textual items := fun fields hfields => h fields (List.mem_cons_of_mem _ hfields)

theorem textual_standingOn {items : List Json.Value} (h : Textual items) (d : Disk) :
    ∀ e ∈ standingOn d items, e.IsTextual := by
  induction items with
  | nil => simp [standingOn]
  | cons item items ih =>
    cases item with
    | object fields =>
      have hfirst := h fields (by simp)
      rw [standingOn]
      split
      · exact List.forall_mem_cons.mpr ⟨hfirst, ih h.tail⟩
      · exact ih h.tail
    | _ => exact ih h.tail

theorem goes_of_stands {α : Type} {e : HistoryEntry} (he : e.IsTextual) {f : Bool → Errand α}
    {r : Except Fault α}
    (h : (if e.backupRef.isFilled then backupStands e.backupRef >>= f else pure false >>= f).run.Goes
      (World.turns test) w r w') :
    (f (standsOn w.disk e)).run.Goes (World.turns test) w r w' := by
  obtain ⟨filePath, ref, description, timestamp, rfl⟩ := he
  by_cases hempty : ref = []
  · subst hempty
    exact h
  · have hfilled : (Json.Value.text ref).isFilled = true := by simp [Json.Value.isFilled, hempty]
    have hstands : standsOn w.disk (.ofTexts filePath ref description timestamp) =
        w.disk.holds ref := by simp [standsOn, HistoryEntry.ofTexts, hempty]
    rw [HistoryEntry.ofTexts, if_pos hfilled] at h
    obtain ⟨stands, u, hholds, h⟩ := goes_lift_bind_run_iff.mp h
    obtain ⟨rfl, rfl⟩ : w.disk.holds ref = stands ∧ w = u := by
      simpa [World.host] using ((goes_call_iff rfl).mp hholds).2
    rw [hstands]
    exact h

/-- Among items with texts only, those are found whose backups stand. -/
theorem eq_of_goes_standing {items : List Json.Value} {r : Except Fault (List HistoryEntry)}
    (htextual : Textual items)
    (h : (standing items).run.Goes (World.turns test) w r w') :
    r = .ok (standingOn w.disk items) ∧ w' = w := by
  induction items generalizing r w' with
  | nil => exact goes_pure_run_iff.mp h
  | cons item items ih =>
    cases item with
    | object fields =>
      have hentry := htextual fields (by simp)
      rw [standing] at h
      have h := goes_of_stands hentry h
      rcases goes_bind_run_iff.mp h with ⟨e, hrest, -⟩ | ⟨rest, v, hrest, h⟩
      · cases (ih htextual.tail hrest).1
      obtain ⟨heq, rfl⟩ := ih htextual.tail hrest
      obtain rfl := Except.ok.inj heq
      obtain ⟨rfl, rfl⟩ := goes_pure_run_iff.mp h
      rw [standingOn]
      exact ⟨by split <;> rfl, rfl⟩
    | _ => exact ih htextual.tail h

theorem ite_bind {m : Type → Type} [Monad m] {α β : Type} (c : Prop) [Decidable c] (x y : m α)
    (f : α → m β) : (if c then x >>= f else y >>= f) = (if c then x else y) >>= f := by
  split <;> rfl

theorem itemsOfText_of_parse {levels : NestingLimit} {text : Text} {value : Json.Value}
    (h : Json.Value.parse levels.1 text = .ok value) :
    itemsOfText levels (.ok text) = .ok (itemsOf value) := by
  rw [itemsOfText, h]

theorem of_goes_readValue {path : Text} {r : Except Fault Json.Value}
    (h : (readValue path).run.Goes (World.turns test) w r w') :
    itemsIn w.nesting w.disk path = r.map itemsOf ∧ w'.disk = w.disk := by
  obtain ⟨found, u, hread, h⟩ := goes_lift_bind_run_iff.mp h
  obtain ⟨rfl, rfl⟩ := eq_of_goes_readText hread
  have hunreadable : ∀ {message : Text},
      (ExceptT.lift (Machine.log .error .history message) >>= fun _ =>
        pure (Json.Value.list []) : Errand Json.Value).run.Goes (World.turns test) u r w' →
      .ok [] = r.map itemsOf ∧ w'.disk = u.disk := by
    intro message h
    obtain ⟨⟨⟩, v, hlog, h⟩ := goes_lift_bind_run_iff.mp h
    obtain ⟨rfl, rfl⟩ := goes_pure_run_iff.mp h
    exact ⟨rfl, World.disk_of_still (still_call rfl) hlog⟩
  rw [itemsIn]
  generalize World.textAt u.disk path = found at h
  cases found with
  | error e => exact hunreadable h
  | ok text =>
    obtain ⟨levels, v, hlevels, h⟩ := goes_lift_bind_run_iff.mp h
    obtain ⟨rfl, rfl⟩ : u.nesting = levels ∧ u = v := by
      simpa [World.host] using ((goes_call_iff rfl).mp hlevels).2
    rw [itemsOfText]
    cases hparse : Json.Value.parse u.nesting.1 text with
    | ok value =>
      rw [hparse] at h
      obtain ⟨rfl, rfl⟩ := goes_pure_run_iff.mp h
      exact ⟨rfl, rfl⟩
    | error fault =>
      rw [hparse] at h
      cases fault with
      | malformed => exact hunreadable h
      | tooDeep kind =>
        obtain ⟨rfl, rfl⟩ := goes_throw_run_iff.mp h
        exact ⟨rfl, rfl⟩

theorem itemsIn_of_not_holds {levels : NestingLimit} {d : Disk} {path : Text}
    (h : d.holds path = false) : itemsIn levels d path = .ok [] := by
  cases hread : World.textAt d path with
  | error e => rw [itemsIn, hread, itemsOfText]
  | ok text =>
    obtain ⟨-, content, hcontent, -⟩ := World.textAt_eq_ok_iff.mp hread
    obtain ⟨place, modified, hplace, hnode, hname⟩ := exists_of_read hcontent
    rw [holds_of_node? hplace hnode hname] at h
    cases h

/-- The entries that stand in a file are those among its items, if these can be told. -/
theorem of_goes_standingIn {path : Text} {r : Except Fault (List HistoryEntry)}
    (h : (standingIn path).run.Goes (World.turns test) w r w') :
    (∃ items u, itemsIn w.nesting w.disk path = .ok items ∧ u.disk = w.disk ∧
      (standing items).run.Goes (World.turns test) u r w') ∨
    ∃ e, itemsIn w.nesting w.disk path = .error e ∧ r = .error e := by
  obtain ⟨stands, u, hholds, h⟩ := goes_lift_bind_run_iff.mp h
  obtain ⟨rfl, rfl⟩ : w.disk.holds path = stands ∧ w = u := by
    simpa [World.host] using ((goes_call_iff rfl).mp hholds).2
  dsimp only at h
  rw [ite_bind] at h
  have hlast : ∀ {value : Json.Value} {u : World},
      (match value with
        | .list items => standing items
        | _ => return [] : Errand (List HistoryEntry)).run.Goes (World.turns test) u r w' →
      (standing (itemsOf value)).run.Goes (World.turns test) u r w' := by
    intro value u h
    cases value <;> exact h
  rcases goes_bind_run_iff.mp h with ⟨e, hvalue, rfl⟩ | ⟨value, u, hvalue, hrest⟩
  · split at hvalue
    · exact .inr ⟨e, (of_goes_readValue hvalue).1, rfl⟩
    · cases (goes_pure_run_iff.mp hvalue).1
  · refine .inl ⟨itemsOf value, u, ?_⟩
    split at hvalue
    next =>
      obtain ⟨hitems, hdisk⟩ := of_goes_readValue hvalue
      exact ⟨hitems, hdisk, hlast hrest⟩
    next hnone =>
      obtain ⟨heq, rfl⟩ := goes_pure_run_iff.mp hvalue
      obtain rfl := Except.ok.inj heq
      exact ⟨itemsIn_of_not_holds (Bool.eq_false_iff.mpr hnone), rfl, hlast hrest⟩

theorem of_goes_load {step : Step Answer World} {r : Except Fault (List HistoryEntry)}
    (h : (load.run.run l).Goes step w (r, l') w') :
    (standingIn l.path).run.Goes step w r w' ∧ l' = { l with known := r.toOption <|> l.known } := by
  rw [load, goes_get_bind_work_iff] at h
  obtain ⟨found, u, hfound, h⟩ := goes_lift_bind_work_iff.mp h
  cases found with
  | error e =>
    obtain ⟨⟨rfl, rfl⟩, rfl⟩ := goes_throw_work_iff.mp h
    exact ⟨hfound, rfl⟩
  | ok es =>
    dsimp only at h
    rw [goes_modify_bind_work_iff] at h
    obtain ⟨⟨rfl, rfl⟩, rfl⟩ := goes_pure_work_iff.mp h
    exact ⟨hfound, rfl⟩

theorem of_goes_load_ok {step : Step Answer World} {es : List HistoryEntry}
    (h : (load.run.run l).Goes step w (.ok es, l') w') : l' = { l with known := some es } :=
  (of_goes_load h).2

theorem of_goes_entries_ok {step : Step Answer World} {es : List HistoryEntry}
    (h : (entries.run.run l).Goes step w (.ok es, l') w') : l' = { l with known := some es } := by
  rw [entries, goes_get_bind_work_iff] at h
  split at h
  next known hknown =>
    obtain ⟨⟨heq, rfl⟩, -⟩ := goes_pure_work_iff.mp h
    obtain rfl := Except.ok.inj heq
    rw [← hknown]
  next => exact of_goes_load_ok h

variable {items : List Json.Value}

theorem eq_of_goes_load {r : Except Fault (List HistoryEntry)}
    (hitems : itemsIn w.nesting w.disk l.path = .ok items) (htextual : Textual items)
    (h : (load.run.run l).Goes (World.turns test) w (r, l') w') :
    r = .ok (standingOn w.disk items) ∧
      l' = { l with known := some (standingOn w.disk items) } ∧ w'.disk = w.disk := by
  obtain ⟨hstanding, rfl⟩ := of_goes_load h
  obtain ⟨found, u, hfound, hdisk, hstanding⟩ | ⟨e, hnone, -⟩ := of_goes_standingIn hstanding
  · obtain rfl := Except.ok.inj (hitems.symm.trans hfound)
    obtain ⟨rfl, rfl⟩ := eq_of_goes_standing htextual hstanding
    rw [hdisk]
    exact ⟨rfl, rfl, rfl⟩
  · rw [hitems] at hnone
    cases hnone

theorem eq_of_goes_entries {r : Except Fault (List HistoryEntry)} (hknown : l.known = none)
    (hitems : itemsIn w.nesting w.disk l.path = .ok items) (htextual : Textual items)
    (h : (entries.run.run l).Goes (World.turns test) w (r, l') w') :
    r = .ok (standingOn w.disk items) ∧
      l' = { l with known := some (standingOn w.disk items) } ∧ w'.disk = w.disk := by
  rw [entries, goes_get_bind_work_iff] at h
  simp only [hknown] at h
  exact eq_of_goes_load hitems htextual h

/-- The entries of a ledger: those that it has in mind, or else those that it would read. -/
def view (l : Ledger) (levels : NestingLimit) (d : Disk) : List HistoryEntry :=
  l.known.getD (standingOn d ((itemsIn levels d l.path).toOption.getD []))

theorem view_of_unknown {levels : NestingLimit} {d : Disk} (hknown : l.known = none)
    (hitems : itemsIn levels d l.path = .ok items) : l.view levels d = standingOn d items := by
  rw [view, hknown, hitems]
  rfl

/-- If a ledger is still to be read, it can be, and it holds texts only. -/
def IsReadable (l : Ledger) (levels : NestingLimit) (d : Disk) : Prop :=
  l.known = none → ∃ items, itemsIn levels d l.path = .ok items ∧ Textual items

theorem eq_view_of_goes_entries {r : Except Fault (List HistoryEntry)}
    (hreadable : l.IsReadable w.nesting w.disk)
    (h : (entries.run.run l).Goes (World.turns test) w (r, l') w') :
    r = .ok (l.view w.nesting w.disk) ∧ l' = { l with known := some (l.view w.nesting w.disk) } ∧
      w'.disk = w.disk := by
  cases hknown : l.known with
  | none =>
    obtain ⟨items, hitems, htextual⟩ := hreadable hknown
    rw [view_of_unknown hknown hitems]
    exact eq_of_goes_entries hknown hitems htextual h
  | some known =>
    rw [entries, goes_get_bind_work_iff, hknown] at h
    obtain ⟨⟨rfl, rfl⟩, rfl⟩ := goes_pure_work_iff.mp h
    have hview : l'.view w'.nesting w'.disk = known := by simp [view, hknown]
    rw [hview, ← hknown]
    exact ⟨rfl, rfl, rfl⟩

/-- Whatever stands at the place of a ledger can be read, and holds no entries but those of texts. -/
def HoldsTexts (levels : NestingLimit) (d : Disk) (path : Text) : Prop :=
  ∀ content modified, d.node? (destination d.current path) = some (.file content modified) →
    ∃ items, itemsOfText levels (Machine.textOf content) = .ok items ∧ Textual items

theorem HoldsTexts.exists_items {levels : NestingLimit} {touched : Place → Prop} {d d' : Disk}
    {path : Text} (h : HoldsTexts levels d path) (hevolves : Evolves touched d d')
    (hfree : ¬ touched (destination d.current path)) :
    ∃ items, itemsIn levels d' path = .ok items ∧ Textual items := by
  cases hread : World.textAt d' path with
  | error e =>
    rw [itemsIn, hread]
    exact ⟨[], rfl, fun fields hfields => by cases hfields⟩
  | ok text =>
    obtain ⟨-, content, hcontent, htext⟩ := World.textAt_eq_ok_iff.mp hread
    obtain ⟨place, modified, hplace, hnode, -⟩ := exists_of_read hcontent
    rw [eq_of_placeOf hplace, hevolves.current_eq] at hnode
    rw [itemsIn, hread, ← htext]
    exact h content modified (hevolves.file_before hfree hnode)

/-! ### Writing -/

theorem isPlain_list (levels : NestingLimit) {entries : List HistoryEntry}
    (h : ∀ e ∈ entries, e.IsTextual) :
    (Json.Value.list (entries.map HistoryEntry.toValue)).IsPlain levels.1 := by
  obtain ⟨n, hn⟩ := Nat.exists_eq_add_of_le' levels.2
  rw [hn, Json.Value.IsPlain, Json.Value.arePlain_iff]
  intro item hitem
  obtain ⟨e, he, rfl⟩ := List.mem_map.mp hitem
  exact (h e he).isPlain n

theorem parse_render (levels : NestingLimit) {entries : List HistoryEntry}
    (h : ∀ e ∈ entries, e.IsTextual) :
    Json.Value.parse levels.1 (render entries) =
      .ok (.list (entries.map HistoryEntry.toValue)) :=
  Json.parse_render (isPlain_list levels h)

theorem textOf_render {entries : List HistoryEntry} (h : ∀ e ∈ entries, e.IsTextual) :
    Machine.textOf (Utf8.encode (render entries)) = .ok (render entries) := by
  have hunbroken : '\r' ∉ render entries :=
    Json.return_not_mem_renderAt 2 _ (isPlain_list ⟨2, Nat.le_refl 2⟩ h) 0
  rw [textOf_of_decode (Utf8.decode_encode _), unifyNewlines_eq_self_iff.mpr hunbroken]

theorem itemsOfText_render (levels : NestingLimit) {entries : List HistoryEntry}
    (h : ∀ e ∈ entries, e.IsTextual) :
    itemsOfText levels (.ok (render entries)) = .ok (entries.map HistoryEntry.toValue) :=
  itemsOfText_of_parse (parse_render levels h)

theorem itemsIn_of_read (levels : NestingLimit) {d : Disk} {path : Text}
    {entries : List HistoryEntry} (hproper : Path.holdsNull path = false)
    (hread : d.read path = .ok (Utf8.encode (render entries)))
    (htextual : ∀ e ∈ entries, e.IsTextual) :
    itemsIn levels d path = .ok (entries.map HistoryEntry.toValue) := by
  have htext : World.textAt d path = .ok (render entries) :=
    World.textAt_eq_ok_iff.mpr ⟨hproper, _, hread, textOf_render htextual⟩
  rw [itemsIn, htext, itemsOfText_render levels htextual]

theorem textual_map_toValue {entries : List HistoryEntry} (h : ∀ e ∈ entries, e.IsTextual) :
    Textual (entries.map HistoryEntry.toValue) := by
  intro fields hfields
  obtain ⟨e, he, heq⟩ := List.mem_map.mp hfields
  rw [← heq, HistoryEntry.ofValue_toValue]
  exact h e he

theorem holdsTexts_of_render (levels : NestingLimit) {d : Disk} {path : Text}
    {entries : List HistoryEntry} {modified : Instant} (htextual : ∀ e ∈ entries, e.IsTextual)
    (hnode : d.node? (destination d.current path) =
      some (.file (Utf8.encode (render entries)) modified)) : HoldsTexts levels d path := by
  intro content modified' hfound
  rw [hnode] at hfound
  cases hfound
  rw [textOf_render htextual]
  exact ⟨_, itemsOfText_render levels htextual, textual_map_toValue htextual⟩

theorem standingOn_map_toValue (d : Disk) (entries : List HistoryEntry) :
    standingOn d (entries.map HistoryEntry.toValue) = entries.filter (standsOn d) := by
  induction entries with
  | nil => rfl
  | cons e entries ih =>
    rw [List.map_cons, HistoryEntry.toValue, standingOn, ← HistoryEntry.toValue,
      HistoryEntry.ofValue_toValue, ih, List.filter_cons]

theorem granted_write {path : Text} {entries : List HistoryEntry} {r : Except Fault Unit}
    (h : (write path entries).run.Goes World.granting w r w') :
    r = .ok () ∧ Path.holdsNull path = false ∧
      w'.disk.read path = .ok (Utf8.encode (render entries)) ∧
      Evolves (· = destination w.disk.current path) w.disk w'.disk := by
  obtain ⟨found, hact, hfound⟩ := goes_adapt_run_iff.mp h
  rcases goes_bind_run_iff.mp hact with ⟨e, hmake, -⟩ | ⟨⟨⟩, u, hmake, hwrite⟩
  · cases granted_makeFolders hmake
  have hmade := evolves_of_goes_makeFolders hmake
  obtain rfl := CodeGraft.granted_write hwrite
  obtain ⟨hproper, now, hdisk⟩ := of_goes_write hwrite
  refine ⟨hfound, hproper, read_of_write hdisk, (hmade.mono fun _ => False.elim).trans ?_⟩
  rw [← hmade.current_eq]
  exact evolves_of_write hdisk

theorem granted_save {r : Except Fault Unit}
    (h : (save.run.run l).Goes World.granting w (r, l') w') :
    r = .ok () ∧ l' = l ∧ Path.holdsNull l.path = false ∧
      w'.disk.read l.path = .ok (Utf8.encode (render (l.known.getD []))) ∧
      Evolves (· = destination w.disk.current l.path) w.disk w'.disk := by
  rw [save, goes_get_bind_work_iff] at h
  obtain ⟨found, u, hwrite, hrest⟩ := goes_lift_bind_work_iff.mp h
  obtain ⟨rfl, hwritten⟩ := granted_write hwrite
  obtain ⟨⟨rfl, rfl⟩, rfl⟩ := goes_pure_work_iff.mp hrest
  exact ⟨rfl, rfl, hwritten⟩

def enter (entry : HistoryEntry) : Work (Bool × HistoryEntry) := do
  let others ← entries
  modify fun l => { l with known := some (kept l.limit (entry :: others)) }
  tryCatch (do save; return (true, entry)) fun e => do
    match e with
    | .historyNotSaved _ _ =>
      Machine.log .error .history e.message
      return (false, entry)
    | e => throw e

theorem granted_enter {entry : HistoryEntry} {r : Except Fault (Bool × HistoryEntry)}
    (hreadable : l.IsReadable w.nesting w.disk)
    (h : ((enter entry).run.run l).Goes World.granting w (r, l') w') :
    r = .ok (true, entry) ∧
      l' = { l with known := some (kept l.limit (entry :: l.view w.nesting w.disk)) } ∧
      Path.holdsNull l.path = false ∧
      w'.disk.read l.path =
        .ok (Utf8.encode (render (kept l.limit (entry :: l.view w.nesting w.disk)))) ∧
      Evolves (· = destination w.disk.current l.path) w.disk w'.disk := by
  rcases goes_bind_work_iff.mp h with ⟨e, hentries, -⟩ | ⟨others, loaded, u, hentries, h⟩
  · cases (eq_view_of_goes_entries hreadable hentries).1
  obtain ⟨heq, rfl, hdisk⟩ := eq_view_of_goes_entries hreadable hentries
  obtain rfl := Except.ok.inj heq
  rw [goes_modify_bind_work_iff] at h
  rcases goes_tryCatch_work_iff.mp h with ⟨b, hdone, hr⟩ | ⟨e, l'', v, hfailed, -⟩
  · rcases goes_bind_work_iff.mp hdone with ⟨e, -, heq⟩ | ⟨⟨⟩, l'', v, hsave, hdone⟩
    · cases heq
    obtain ⟨⟨heq, rfl⟩, rfl⟩ := goes_pure_work_iff.mp hdone
    obtain rfl := Except.ok.inj heq
    obtain ⟨-, rfl, hproper, hread, hevolves⟩ := granted_save hsave
    rw [hdisk] at hevolves
    exact ⟨hr, rfl, hproper, hread, hevolves⟩
  · rcases goes_bind_work_iff.mp hfailed with ⟨e', hsave, -⟩ | ⟨⟨⟩, l'', v, -, hdone⟩
    · cases (granted_save hsave).1
    · cases (goes_pure_work_iff.mp hdone).1.1

theorem granted_record_stamped {entry : HistoryEntry} {r : Except Fault (Bool × HistoryEntry)}
    (hreadable : l.IsReadable w.nesting w.disk) (hfile : entry.filePath.isFilled = true)
    (href : entry.backupRef.isFilled = true)
    (h : ((record entry).run.run l).Goes World.granting w (r, l') w') :
    ∃ now, r = .ok (true, entry.stamped now) ∧
      l' =
        { l with known := some (kept l.limit (entry.stamped now :: l.view w.nesting w.disk)) } ∧
      Path.holdsNull l.path = false ∧
      w'.disk.read l.path = .ok (Utf8.encode (render
        (kept l.limit (entry.stamped now :: l.view w.nesting w.disk)))) ∧
      Evolves (· = destination w.disk.current l.path) w.disk w'.disk := by
  rw [record, if_neg (by simp [hfile, href])] at h
  unfold HistoryEntry.stamped
  split
  next hstamped =>
    simp only [hstamped, if_true] at h
    exact ⟨w.now, granted_enter hreadable h⟩
  next hunstamped =>
    simp only [hunstamped] at h
    obtain ⟨now, u, hclock, hentered⟩ := goes_lift_bind_work_iff.mp h
    have hsame := World.surroundings_of_goes hclock
    have hdisk := World.disk_of_still (still_call rfl) hclock
    rw [← hdisk, ← hsame] at hreadable ⊢
    exact ⟨now, granted_enter hreadable hentered⟩

theorem eq_of_goes_record_of_empty {step : Step Answer World} {entry : HistoryEntry}
    {r : Except Fault (Bool × HistoryEntry)}
    (hempty : ¬ (entry.filePath.isFilled = true ∧ entry.backupRef.isFilled = true))
    (h : ((record entry).run.run l).Goes step w (r, l') w') :
    r = .ok (false, entry) ∧ l' = l ∧ w' = w := by
  rw [record, if_pos (by simpa [Classical.or_iff_not_imp_left] using hempty)] at h
  obtain ⟨⟨rfl, rfl⟩, rfl⟩ := goes_pure_work_iff.mp h
  exact ⟨rfl, rfl, rfl⟩

theorem granted_record {entry : HistoryEntry} {r : Except Fault (Bool × HistoryEntry)}
    (hknown : l.known = none) (hitems : itemsIn w.nesting w.disk l.path = .ok items)
    (htextual : Textual items) (hfile : entry.filePath.isFilled = true)
    (href : entry.backupRef.isFilled = true) (htimestamp : entry.timestamp.isFilled = true)
    (h : ((record entry).run.run l).Goes World.granting w (r, l') w') :
    r = .ok (true, entry) ∧ Path.holdsNull l.path = false ∧
      w'.disk.read l.path = .ok (Utf8.encode (render
        (kept l.limit (entry :: standingOn w.disk items)))) ∧
      Evolves (· = destination w.disk.current l.path) w.disk w'.disk := by
  obtain ⟨now, hr, -, hproper, hread, hevolves⟩ :=
    granted_record_stamped (fun _ => ⟨items, hitems, htextual⟩) hfile href h
  rw [HistoryEntry.stamped_of_isFilled htimestamp] at hr hread
  rw [view_of_unknown hknown hitems] at hread
  exact ⟨hr, hproper, hread, hevolves⟩

end Ledger

end CodeGraft
