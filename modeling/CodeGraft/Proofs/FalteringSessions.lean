import CodeGraft.Proofs.PairedStores

/-!
# Sessions on a machine that falters

A session is held in a workspace whose machine may falter, and with others who may reply as they
like. Most of its requests pass by the stores of the workspace; a backup that is taken and the record
of it make a new pair there.
-/

namespace CodeGraft

open Text Dialogue Disk

namespace Request

/-- Whether a request goes to someone besides the workspace and its stores. -/
def isOutward : Request → Bool
  | confirm _ _ => true
  | view _ => true
  | clock => true
  | tell _ => true
  | detail _ => true
  | log _ => true
  | _ => false

theorem not_isEffect_of_isOutward {q : Request} (h : q.isOutward = true) : q.isEffect = false := by
  cases q <;> first | rfl | cases h

def Passes (w : LocalWorkspace) (own : Place → Prop) (current : Place) : Request → Prop
  | backup _ _ => False
  | record _ => False
  | writeText target _ =>
    ∀ path, w.absolutePath target = .ok path → ¬ own (destination current path)
  | _ => True

theorem isQuiet.passes {q : Request} (h : q.isQuiet = true) (w : LocalWorkspace)
    (own : Place → Prop) (current : Place) : q.Passes w own current := by
  cases q <;> trivial

end Request

theorem Quiet.passes {xs : List (Exchange Reply)} (h : Quiet xs) (w : LocalWorkspace)
    (own : Place → Prop) (current : Place) : ∀ x ∈ xs, x.1.Passes w own current :=
  fun x hx => Request.isQuiet.passes (h x hx) w own current

namespace LocalWorkspace

/-- The steps of a session in a workspace whose machine may falter. The backup store may refuse, and
whoever else takes part may reply anything. -/
inductive Falters (w : LocalWorkspace) : Step Reply (Stores × World)
  | replies {q : Request} {before after : Stores × World} {r : Reply q}
      (h : relayed w.reply World.Falters q before r after) : Falters w q before r after
  | refused (path content : Text) (e : Fault) (before : Stores × World) :
      Falters w (.backup path content) before (.error e) before
  | outward {q : Request} (h : q.isOutward = true) (before : Stores × World) (r : Reply q) :
      Falters w q before r before

section

variable {w : LocalWorkspace} {q : Request} {r : Reply q} {before after : Stores × World}
  {own : Place → Prop} {cap : Nat} {keeps : HistoryEntry → Bytes → Prop}
  {entries : List HistoryEntry} {names : List Text}

theorem Falters.still (h : w.Falters q before r after) (hq : q.isEffect = false) :
    after.2.disk = before.2.disk ∧ after.1 = before.1 := by
  cases h with
  | replies h => exact still_of_steps hq h
  | refused => cases hq
  | outward => exact ⟨rfl, rfl⟩

theorem Falters.nodup (h : w.Falters q before r after)
    (hnodup : (before.2.disk.nodes.map (·.1)).Nodup) :
    (after.2.disk.nodes.map (·.1)).Nodup := by
  cases h with
  | replies h => exact World.nodup_of_goes h hnodup
  | refused => exact hnodup
  | outward => exact hnodup

theorem Falters.current_eq (h : w.Falters q before r after) :
    after.2.disk.current = before.2.disk.current := by
  cases h with
  | replies h =>
    have htouches : ∀ c, Call.Touches before.2.disk.current (fun _ => True) c := fun c => by
      cases c <;> trivial
    exact (World.evolves_of_goes (asks_of_forall htouches _) h).current_eq
  | refused => rfl
  | outward => rfl

theorem evolves_of_withPath {α : Type} {path : Text} {act : Text → Errand α} {a : Except Fault α}
    {touched : Place → Prop} {world world' : World}
    (hact : ∀ absolute, w.absolutePath path = .ok absolute →
      (act absolute).run.Asks (Call.Touches world.disk.current touched))
    (h : (w.withPath path act).run.Goes World.Falters world a world') :
    Evolves touched world.disk world'.disk := by
  refine World.evolves_of_goes ?_ h
  unfold withPath
  split
  next absolute habsolute => exact hact absolute habsolute
  next => exact trivial

theorem Falters.passes (h : w.Falters q before r after)
    (hq : q.Passes w own before.2.disk.current) :
    after.1 = before.1 ∧ Evolves (fun place => ¬ own place) before.2.disk after.2.disk := by
  have hstill : q.isEffect = false →
      after.1 = before.1 ∧ Evolves (fun place => ¬ own place) before.2.disk after.2.disk := by
    intro heffect
    obtain ⟨hdisk, hstores⟩ := h.still heffect
    rw [hdisk]
    exact ⟨hstores, .refl _ _⟩
  cases h with
  | refused => cases hq
  | outward houtward => exact hstill (Request.not_isEffect_of_isOutward houtward)
  | replies h =>
    cases q with
    | writeText target content =>
      obtain ⟨hgoes, hstores⟩ := goes_lift_iff.mp h
      refine ⟨hstores, evolves_of_withPath (fun path hpath => ?_) hgoes⟩
      have htouches : (Call.write path (Utf8.encode content)).Touches before.2.disk.current
          fun place => ¬ own place := hq path hpath
      exact asks_question htouches
    | makeFolder path =>
      obtain ⟨hgoes, hstores⟩ := goes_lift_iff.mp h
      exact ⟨hstores, evolves_of_withPath (fun _ _ => touches_makeFoldersUpTo ..) hgoes⟩
    | backup => cases hq
    | record => cases hq
    | _ => exact hstill rfl

theorem Falters.paired (h : w.Falters q before r after)
    (hq : q.Passes w own before.2.disk.current)
    (hpaired : before.1.Paired before.2.disk own cap keeps entries names) :
    after.1.Paired after.2.disk own cap keeps entries names := by
  obtain ⟨hstores, hevolves⟩ := h.passes hq
  rw [hstores]
  exact hpaired.of_evolves (h.nodup hpaired.nodup) hevolves fun place hown hnot => hnot hown

theorem Falters.of_readText {path text : Text} (h : w.Falters (.readText path) before (.ok text) after) :
    ∃ absolute content, w.absolutePath path = .ok absolute ∧
      before.2.disk.read absolute = .ok content ∧ Machine.textOf content = .ok text := by
  cases h with
  | replies h => exact of_steps_readText h
  | outward houtward => cases houtward

theorem Falters.of_absolutePath {path : Text} {found : Except Fault Text}
    (h : w.Falters (.absolutePath path) before found after) :
    found = w.absolutePath path ∧ after = before := by
  cases h with
  | replies h => exact eq_of_steps_absolutePath h
  | outward houtward => cases houtward

/-- Either no backup is taken and the pairs stay, or one is taken that the ledger does not know yet. -/
theorem Falters.backup_cases {path content : Text} {ref : Except Fault (Option Text)}
    (h : w.Falters (.backup path content) before ref after)
    (hpaired : before.1.Paired before.2.disk own cap keeps entries names) :
    ref.toOption.join = none ∧ after.1.Paired after.2.disk own cap keeps entries names ∨
      ∃ name store, ref = .ok (some (Path.join before.1.backups.folder name)) ∧
        after.1 = { before.1 with backups := store } ∧
        BackupStore.Taken before.1.backups store before.2.disk after.2.disk cap names name
          content := by
  cases h with
  | outward houtward => cases houtward
  | refused _ _ e => exact .inl ⟨rfl, hpaired⟩
  | replies h =>
    have hnodup := World.nodup_of_goes h hpaired.nodup
    obtain ⟨store, hgoes, hstores⟩ := of_steps_backup h
    obtain ⟨kept, hkept, hcases⟩ := BackupStore.backup_cases (hpaired.backups.finds hpaired.nodup)
      hpaired.backups_limit (Int.natCast_nonneg cap) hgoes
    rw [Int.toNat_natCast, List.take_of_length_le hpaired.short, or_self] at hkept
    rw [hkept] at hcases
    rcases hcases with ⟨-, -, -, -, href, huntaken⟩ | ⟨name, href, htaken⟩
    · rw [hstores]
      exact .inl ⟨href, hpaired.of_untaken hnodup huntaken⟩
    · exact .inr ⟨name, store, href, hstores, htaken⟩

theorem Falters.of_record {entry : HistoryEntry} {reply : Except Fault Bool}
    (h : w.Falters (.record entry) before reply after)
    (hkeeps : before.1.ledger.Keeps before.2.disk entries)
    (hfile : entry.filePath.isFilled = true) (href : entry.backupRef.isFilled = true)
    (htimestamp : entry.timestamp.isFilled = true) :
    after.1 = { before.1 with ledger := { before.1.ledger with
        known := some (Ledger.kept before.1.ledger.limit (entry :: entries)) } } ∧
      Evolves (· = destination before.2.disk.current before.1.ledger.path) before.2.disk
        after.2.disk := by
  cases h with
  | outward houtward => cases houtward
  | replies h =>
    obtain ⟨found, ledger, hgoes, hstores⟩ := of_steps_record h
    obtain ⟨rfl, hevolves⟩ := hkeeps.of_goes_record hfile href htimestamp hgoes
    exact ⟨hstores, hevolves⟩

end

/-! ### Hosts -/

/-- A host that replies to a session in a workspace whose machine may falter. What is known of its
states are the stores and the machine. -/
def Hosts {σ : Type} (w : LocalWorkspace) (host : Host Reply σ) (view : σ → Stores × World) : Prop :=
  ∀ q s, w.Falters q (view s) (host q s).1 (view (host q s).2)

variable {σ : Type} {w : LocalWorkspace} {host : Host Reply σ} {view : σ → Stores × World} {s t : σ}
  {xs : List (Exchange Reply)} {own : Place → Prop} {cap : Nat}
  {keeps : HistoryEntry → Bytes → Prop} {entries : List HistoryEntry} {names : List Text}

theorem Hosts.step (hhost : w.Hosts host view) {q : Request} {r : Reply q}
    (h : Answers host s (⟨q, r⟩ :: xs) t) :
    ∃ u, w.Falters q (view s) r (view u) ∧ Answers host u xs t := by
  obtain ⟨hreply, hrest⟩ := h
  have hstep := hhost q s
  rw [show (host q s).1 = r from hreply] at hstep
  exact ⟨(host q s).2, hstep, hrest⟩

theorem Hosts.current_eq (hhost : w.Hosts host view) (h : Answers host s xs t) :
    (view t).2.disk.current = (view s).2.disk.current := by
  induction xs generalizing s with
  | nil =>
    obtain rfl : s = t := h
    rfl
  | cons x xs ih =>
    obtain ⟨u, hstep, hrest⟩ := hhost.step h
    exact (ih hrest).trans hstep.current_eq

theorem Hosts.still (hhost : w.Hosts host view) (h : Answers host s xs t)
    (hxs : ∀ x ∈ xs, x.1.isEffect = false) :
    (view t).2.disk = (view s).2.disk ∧ (view t).1 = (view s).1 := by
  induction xs generalizing s with
  | nil =>
    obtain rfl : s = t := h
    exact ⟨rfl, rfl⟩
  | cons x xs ih =>
    obtain ⟨hx, hxs⟩ := List.forall_mem_cons.mp hxs
    obtain ⟨u, hstep, hrest⟩ := hhost.step h
    obtain ⟨hdisk, hstores⟩ := hstep.still hx
    obtain ⟨hdisk', hstores'⟩ := ih hrest hxs
    exact ⟨hdisk'.trans hdisk, hstores'.trans hstores⟩

theorem Hosts.paired (hhost : w.Hosts host view) (h : Answers host s xs t)
    (hxs : ∀ x ∈ xs, x.1.Passes w own (view s).2.disk.current)
    (hpaired : (view s).1.Paired (view s).2.disk own cap keeps entries names) :
    (view t).1.Paired (view t).2.disk own cap keeps entries names := by
  induction xs generalizing s with
  | nil =>
    obtain rfl : s = t := h
    exact hpaired
  | cons x xs ih =>
    obtain ⟨hx, hxs⟩ := List.forall_mem_cons.mp hxs
    obtain ⟨u, hstep, hrest⟩ := hhost.step h
    rw [← (hstep.passes hx).2.current_eq] at hxs
    exact ih hrest hxs (hstep.paired hx hpaired)

theorem Hosts.of_recorded (hhost : w.Hosts host view) {entry : HistoryEntry} {now : Instant}
    {recorded : Except Fault Bool} {told : List (Exchange Reply)}
    (h : Answers host s (⟨.clock, now⟩ :: ⟨.record entry, recorded⟩ :: told) t)
    (htold : Telling told) (hkeeps : (view s).1.ledger.Keeps (view s).2.disk entries)
    (hnodup : ((view s).2.disk.nodes.map (·.1)).Nodup) (hfile : entry.filePath.isFilled = true)
    (href : entry.backupRef.isFilled = true) (htimestamp : entry.timestamp.isFilled = true) :
    (view t).1 = { (view s).1 with ledger := { (view s).1.ledger with
        known := some (Ledger.kept (view s).1.ledger.limit (entry :: entries)) } } ∧
      Evolves (· = destination (view s).2.disk.current (view s).1.ledger.path) (view s).2.disk
        (view t).2.disk ∧
      ((view t).2.disk.nodes.map (·.1)).Nodup := by
  obtain ⟨clocked, hclock, h⟩ := hhost.step h
  obtain ⟨hdisk, hstores⟩ := hclock.still rfl
  obtain ⟨u, hrecord, htold'⟩ := hhost.step h
  obtain ⟨htdisk, htstores⟩ := hhost.still htold' htold.looking.uneffective
  rw [← hdisk, ← hstores] at hkeeps
  obtain ⟨hustores, hevolves⟩ := hrecord.of_record hkeeps hfile href htimestamp
  rw [hdisk, hstores] at hevolves
  rw [hstores] at hustores
  rw [htdisk]
  exact ⟨htstores.trans hustores, hevolves, hrecord.nodup (hdisk ▸ hnodup)⟩

def inMemory (w : LocalWorkspace) : Host Reply (Stores × World) := fun q s =>
  let ((r, stores), world, _) := run World.host ((w.reply q).run s.1) s.2
  (r, stores, world)

theorem hosts_inMemory (w : LocalWorkspace) : w.Hosts w.inMemory id := by
  intro q s
  have hgoes := goes_run World.host ((w.reply q).run s.1) s.2
  exact .replies (hgoes.mono fun _ _ _ _ => World.Tame.falters)

end LocalWorkspace

end CodeGraft
