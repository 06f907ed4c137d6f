import CodeGraft.Proofs.Courses
import CodeGraft.Proofs.Steps
import CodeGraft.Machine.World
import CodeGraft.Workspace.Session

/-!
# Sessions on a machine

A session in a local workspace goes by the steps of the machine. Most of its requests change nothing
on the disk, as the routines that reply to them make no call that does. A machine may falter: what is
proved of tame steps holds whatever its clock shows, and whichever of its calls fail.
-/

namespace CodeGraft

open Text Dialogue

theorem eq_ok_of_toOption {α : Type} {r : Except Fault α} {a : α} (h : r.toOption = some a) :
    r = .ok a := by
  cases r with
  | error e => cases h
  | ok b => exact congrArg Except.ok (Option.some.inj h)

def Call.isStill : Call → Bool
  | .write _ _ => false
  | .makeFolder _ => false
  | .remove _ => false
  | _ => true

/-- Whether a call is always answered by what the machine holds, whatever its clock shows. -/
def Call.isSure : Call → Bool
  | .holds _ => true
  | .isFile _ => true
  | .isFolder _ => true
  | .files _ => true
  | .names _ => true
  | .below _ => true
  | .currentFolder => true
  | .homeOf _ => true
  | .ignoreTest _ => true
  | .nesting => true
  | _ => false

abbrev Still {α : Type} (d : Routine α) : Prop := d.Asks fun c => c.isStill = true

namespace World

variable {w w' : World}

theorem disk_host {c : Call} (h : c.isStill = true) (w : World) : (host c w).2.disk = w.disk := by
  cases c <;> first | rfl | cases h

theorem change_eq (w : World) (path : Text) (answer : Except DiskRefusal Disk) :
    (w.change path answer).2 = { w with disk := (w.change path answer).2.disk } := by
  unfold change
  cases ask path answer <;> rfl

/-- No call changes what the machine brings with it, nor what its own clock shows. -/
theorem surroundings_host (c : Call) (w : World) :
    (host c w).2.toSurroundings = w.toSurroundings ∧ (host c w).2.now = w.now := by
  cases c with
  | write path content => exact ⟨by rw [host, change_eq], by rw [host, change_eq]⟩
  | makeFolder path => exact ⟨by rw [host, change_eq], by rw [host, change_eq]⟩
  | remove path => exact ⟨by rw [host, change_eq], by rw [host, change_eq]⟩
  | _ => exact ⟨rfl, rfl⟩

end World

/-! ### Machines that falter -/

namespace World

theorem ask_eq_ok_iff {α : Type} {path : Text} {answer : Except DiskRefusal α} {a : α} :
    ask path answer = .ok a ↔ Path.holdsNull path = false ∧ answer = .ok a := by
  unfold ask
  cases Path.holdsNull path with
  | true => simp
  | false => cases answer <;> simp

theorem change_eq_ok_iff {w w' : World} {path : Text} {answer : Except DiskRefusal Disk} :
    w.change path answer = (.ok (), w') ↔
      Path.holdsNull path = false ∧ ∃ disk, answer = .ok disk ∧ w' = { w with disk } := by
  unfold change
  cases hask : ask path answer with
  | ok disk =>
    obtain ⟨hnull, hanswer⟩ := ask_eq_ok_iff.mp hask
    simp [hnull, hanswer, eq_comm]
  | error e =>
    have hno : ∀ disk, ¬(Path.holdsNull path = false ∧ answer = .ok disk) := by
      intro disk hdisk
      rw [ask_eq_ok_iff.mpr hdisk] at hask
      cases hask
    simp only [Prod.mk.injEq, reduceCtorEq, false_and, false_iff, not_and, not_exists]
    intro hnull disk hanswer
    exact absurd ⟨hnull, hanswer⟩ (hno disk)

theorem eq_of_change_error {w w' : World} {path : Text} {answer : Except DiskRefusal Disk}
    {e : Fault} (h : w.change path answer = (.error e, w')) : w' = w := by
  unfold change at h
  split at h
  · cases h
  · cases h
    rfl

/-- The answers of a machine that may falter. Its clock shows any instant. It may fail to read, to
write, to make a folder or to remove a file, and a write that fails may leave any content behind. -/
inductive Falters : Step Answer World
  | answers {c : Call} {w w' : World} {r : Answer c} (now : Instant)
      (h : host c { w with now } = (r, { w' with now })) : Falters c w r w'
  | unread (w : World) (path : Text) (e : Fault) : Falters (.read path) w (.error e) w
  | unmade (w : World) (path : Text) (e : Fault) : Falters (.makeFolder path) w (.error e) w
  | unremoved (w : World) (path : Text) (e : Fault) : Falters (.remove path) w (.error e) w
  | unwritten (w : World) (path : Text) (content : Bytes) (e : Fault) :
      Falters (.write path content) w (.error e) w
  | torn (w : World) (path : Text) (content part : Bytes) (now : Instant) (e : Fault) {disk : Disk}
      (h : w.disk.write now path part = .ok disk) :
      Falters (.write path content) w (.error e) { w with disk }

/-- Steps of a machine that does nothing worse than falter. -/
class Tame (step : Step Answer World) : Prop where
  falters : ∀ {c : Call} {w w' : World} {r : Answer c}, step c w r w' → Falters c w r w'

instance : Tame Falters := ⟨id⟩

/-- The steps of a machine whose clock can show any instant at any time. To the calls that pass a
test it answers as the machine in memory does; the clock that is part of that machine stands still. -/
def turns (test : Call → World → Bool) : Step Answer World := fun c w r w' =>
  test c w = true ∧ ∃ now, host c { w with now } = (r, { w' with now }) ∧ w'.now = w.now

instance (test : Call → World → Bool) : Tame (turns test) :=
  ⟨fun ⟨_, now, h, _⟩ => .answers now h⟩

theorem turns_of_host {test : Call → World → Bool} {c : Call} {r : Answer c}
    (h : Host.steps host test c w r w') : turns test c w r w' := by
  obtain ⟨htest, hhost⟩ := h
  have hnow : w'.now = w.now := by
    rw [← (surroundings_host c w).2, hhost]
  have hsame : { w' with now := w.now } = w' := by rw [← hnow]
  exact ⟨htest, w.now, by rw [hsame]; exact hhost, hnow⟩

instance (test : Call → World → Bool) : Tame (Host.steps host test) :=
  ⟨fun h => Tame.falters (turns_of_host h)⟩

theorem Falters.disk_eq {c : Call} {r : Answer c} (hc : c.isStill = true)
    (h : Falters c w r w') : w'.disk = w.disk := by
  cases h with
  | answers now h =>
    calc w'.disk = (host c { w with now }).2.disk := congrArg (·.2.disk) h.symm
      _ = w.disk := disk_host hc _
  | unread => rfl
  | unmade => cases hc
  | unremoved => cases hc
  | unwritten => cases hc
  | torn => cases hc

theorem Falters.eq_host {c : Call} {r : Answer c} (hc : c.isSure = true) (h : Falters c w r w') :
    r = (host c w).1 := by
  cases h with
  | answers now h =>
    have hanswer : (host c { w with now }).1 = r := congrArg Prod.fst h
    rw [← hanswer]
    cases c <;> first | rfl | cases hc
  | unread => cases hc
  | unmade => cases hc
  | unremoved => cases hc
  | unwritten => cases hc
  | torn => cases hc

theorem Falters.of_read {path : Text} {content : Bytes}
    (h : Falters (.read path) w (.ok content) w') :
    Path.holdsNull path = false ∧ w.disk.read path = .ok content := by
  cases h with
  | answers now h => exact ask_eq_ok_iff.mp (congrArg Prod.fst h)

theorem Falters.write_cases {path : Text} {content : Bytes} {r : Except Fault Unit}
    (h : Falters (.write path content) w r w') :
    (∃ e, r = .error e) ∧ w'.disk = w.disk ∨
      ∃ now part, w.disk.write now path part = .ok w'.disk ∧
        (r = .ok () → part = content ∧ Path.holdsNull path = false) := by
  cases h with
  | answers now h =>
    change { w with now }.change path (w.disk.write now path content) = (r, { w' with now }) at h
    cases r with
    | error e =>
      have hw : { w' with now } = { w with now } := eq_of_change_error h
      exact .inl ⟨⟨e, rfl⟩, (World.mk.inj hw).2.1⟩
    | ok =>
      obtain ⟨hnull, disk, hdisk, hw⟩ := change_eq_ok_iff.mp h
      obtain rfl : w'.disk = disk := (World.mk.inj hw).2.1
      exact .inr ⟨now, content, hdisk, fun _ => ⟨rfl, hnull⟩⟩
  | unwritten _ _ _ e => exact .inl ⟨⟨e, rfl⟩, rfl⟩
  | torn _ _ _ part now e hwrite => exact .inr ⟨now, part, hwrite, fun h => by cases h⟩

theorem Falters.of_write {path : Text} {content : Bytes}
    (h : Falters (.write path content) w (.ok ()) w') :
    Path.holdsNull path = false ∧ ∃ now, w.disk.write now path content = .ok w'.disk := by
  obtain ⟨⟨e, hr⟩, -⟩ | ⟨now, part, hwrite, hdone⟩ := h.write_cases
  · cases hr
  · obtain ⟨rfl, hnull⟩ := hdone rfl
    exact ⟨hnull, now, hwrite⟩

theorem Falters.of_makeFolder {path : Text} (h : Falters (.makeFolder path) w (.ok ()) w') :
    w.disk.makeFolder path = .ok w'.disk := by
  cases h with
  | answers now h =>
    change { w with now }.change path (w.disk.makeFolder path) = (.ok (), { w' with now }) at h
    obtain ⟨-, disk, hdisk, hw⟩ := change_eq_ok_iff.mp h
    obtain rfl : w'.disk = disk := (World.mk.inj hw).2.1
    exact hdisk

theorem Falters.disk_of_makeFolder_error {path : Text} {e : Fault}
    (h : Falters (.makeFolder path) w (.error e) w') : w'.disk = w.disk := by
  cases h with
  | answers now h =>
    change { w with now }.change path (w.disk.makeFolder path) = (.error e, { w' with now }) at h
    have hw : { w' with now } = { w with now } := eq_of_change_error h
    exact (World.mk.inj hw).2.1
  | unmade => rfl

theorem Falters.surroundings_eq {c : Call} {r : Answer c} (h : Falters c w r w') :
    w'.toSurroundings = w.toSurroundings := by
  cases h with
  | answers now h =>
    calc w'.toSurroundings = (host c { w with now }).2.toSurroundings :=
          congrArg (·.2.toSurroundings) h.symm
      _ = w.toSurroundings := (surroundings_host c _).1
  | _ => rfl

theorem surroundings_of_goes {α : Type} {step : Step Answer World} [Tame step] {d : Routine α} {a : α}
    (h : d.Goes step w a w') : w'.toSurroundings = w.toSurroundings := by
  have hall : d.Asks fun _ => True := asks_of_forall (fun _ => trivial) d
  exact h.keeps (fun _ _ _ _ _ hstep => (Tame.falters hstep).surroundings_eq) hall

theorem disk_of_still {α : Type} {step : Step Answer World} [Tame step] {d : Routine α} {a : α}
    (hd : Still d) (h : d.Goes step w a w') : w'.disk = w.disk :=
  h.keeps (fun _ _ _ _ hc hstep => (Tame.falters hstep).disk_eq hc) hd

end World

theorem still_call {c : Call} (h : c.isStill = true) : Still (Machine.call c) := asks_question h

theorem still_readText (path : Text) : Still (Machine.readText path).run := by
  refine asks_bind_run (still_call rfl) fun content => ?_
  split <;> exact trivial

theorem still_ignoreLines (folders : List Text) : Still (ignoreLines folders) := by
  induction folders with
  | nil => exact trivial
  | cons folder rest ih =>
    refine asks_bind (still_call rfl) fun found => ?_
    split
    · refine asks_bind (still_call rfl) fun r => ?_
      cases r with
      | ok content => exact trivial
      | error e => exact asks_bind (still_call rfl) fun _ => trivial
    · exact ih

theorem still_ignoreTestAt (path : Text) : Still (ignoreTestAt path).run := by
  refine asks_bind_run (asks_lift_run (still_call rfl)) fun current => ?_
  refine asks_bind_run (asks_lift_run (still_call rfl)) fun found => ?_
  refine asks_bind_run (asks_lift_run (still_ignoreLines _)) fun lines => ?_
  refine asks_tryCatch_run (still_call rfl) fun e => ?_
  exact asks_bind_run (asks_lift_run (still_call rfl)) fun _ => still_call rfl

namespace LocalWorkspace

variable (w : LocalWorkspace)

theorem still_withPath {α : Type} (path : Text) {act : Text → Errand α}
    (hact : ∀ absolute, Still (act absolute).run) : Still (w.withPath path act).run := by
  unfold withPath
  split
  · exact hact _
  · exact trivial

theorem still_findByName (name : Text) : Still (w.findByName name).run := by
  refine asks_bind_run (still_ignoreTestAt _) fun ignores => ?_
  exact asks_bind_run (still_call rfl) fun all => trivial

end LocalWorkspace

theorem Console.still_ask (options : List Text) (patience : Nat) :
    Still (Console.ask options patience).run := by
  induction patience with
  | zero => exact trivial
  | succ patience ih =>
    refine asks_bind_run (still_call rfl) fun typed => ?_
    cases typed with
    | none => exact trivial
    | some typed =>
      dsimp only
      split
      · exact trivial
      · split
        · exact trivial
        · exact trivial
        · exact asks_bind_run (asks_lift_run (still_call rfl)) fun _ => ih

theorem Console.still_confirm (prompt : Text) (options : List Text) :
    Still (Console.confirm prompt options).run :=
  asks_bind_run (asks_lift_run (still_call rfl)) fun _ => Console.still_ask options _

/-- Whether the answer to a call, and what it does, are the same whatever the clock shows. -/
def Call.isTimeless : Call → Bool
  | .now => false
  | .write _ _ => false
  | _ => true

namespace World

theorem host_of_isTimeless {c : Call} (h : c.isTimeless = true) (w : World) (now : Instant) :
    host c { w with now } = ((host c w).1, { (host c w).2 with now }) := by
  have hchange : ∀ (path : Text) (answer : Except DiskRefusal Disk),
      { w with now }.change path answer =
        ((w.change path answer).1, { (w.change path answer).2 with now }) := by
    intro path answer
    unfold change
    cases ask path answer <;> rfl
  cases c with
  | now => cases h
  | write => cases h
  | makeFolder path => exact hchange path _
  | remove path => exact hchange path _
  | _ => rfl

theorem turns_iff_of_isTimeless {test : Call → World → Bool} {c : Call} {r : Answer c}
    {w w' : World} (h : c.isTimeless = true) :
    turns test c w r w' ↔ test c w = true ∧ host c w = (r, w') := by
  refine ⟨fun ⟨htest, now, hhost, hnow⟩ => ⟨htest, ?_⟩, turns_of_host⟩
  rw [host_of_isTimeless h, Prod.mk.injEq] at hhost
  obtain ⟨rfl, hrest⟩ := hhost
  have hsame : { (host c w).2 with now := w'.now } = w' :=
    congrArg (fun u : World => { u with now := w'.now }) hrest
  rw [hnow, ← (surroundings_host c w).2] at hsame
  rw [← hsame]

theorem goes_turns {α : Type} {test : Call → World → Bool} {w w' : World} {d : Routine α} {a : α}
    (h : d.Goes (Host.steps host test) w a w') : d.Goes (turns test) w a w' :=
  h.mono fun _ _ _ _ hstep => turns_of_host hstep

end World

/-- A host in whose states there is a machine in memory. It answers as this does, but whenever it is
called its clock can show another instant. -/
structure ClockedHost (σ : Type) where
  host : Host Answer σ
  world : σ → World
  turns : ∀ c s, World.turns (fun _ _ => true) c (world s) (host c s).1 (world (host c s).2)

namespace ClockedHost

variable {σ : Type} {m : ClockedHost σ} {s t : σ} {test : Call → World → Bool}

abbrev steps (m : ClockedHost σ) (test : Call → World → Bool) : Step Answer σ :=
  Host.steps m.host fun c s => test c (m.world s)

theorem turns_of_steps {c : Call} {r : Answer c} (h : m.steps test c s r t) :
    World.turns test c (m.world s) r (m.world t) := by
  obtain ⟨htest, hhost⟩ := h
  obtain ⟨-, now, hturns⟩ := m.turns c s
  rw [hhost] at hturns
  exact ⟨htest, now, hturns⟩

theorem goes_world {α : Type} {d : Routine α} {a : α} (h : d.Goes (m.steps test) s a t) :
    d.Goes (World.turns test) (m.world s) a (m.world t) :=
  h.map fun _ _ _ _ hstep => turns_of_steps hstep

def still : ClockedHost World := ⟨World.host, id, fun _ _ => World.turns_of_host ⟨rfl, rfl⟩⟩

/-- A machine in memory whose clock goes on with each call. -/
def ticking (clock : Nat → Instant) : ClockedHost (World × Nat) where
  host c s :=
    let (r, w) := World.host c { s.1 with now := clock s.2 }
    (r, { w with now := s.1.now }, s.2 + 1)
  world := Prod.fst
  turns c s := by
    have hnow := (World.surroundings_host c { s.1 with now := clock s.2 }).2
    refine ⟨rfl, clock s.2, Prod.ext rfl ?_, rfl⟩
    exact congrArg (fun now => { (World.host c { s.1 with now := clock s.2 }).2 with now }) hnow

end ClockedHost

/-! ### Steps of requests -/

section

variable {test : Call → World → Bool} {world world' : World}

theorem goes_call_iff {c : Call} {r : Answer c} (h : c.isTimeless = true) :
    (Machine.call c).Goes (World.turns test) world r world' ↔
      test c world = true ∧ World.host c world = (r, world') :=
  goes_question_iff.trans (World.turns_iff_of_isTimeless h)

theorem eq_of_goes_read {path : Text} {r : Except Fault Bytes}
    (h : (Machine.read path).run.Goes (World.turns test) world r world') :
    r = World.ask path (world.disk.read path) ∧ world' = world := by
  obtain ⟨-, hhost⟩ := (goes_call_iff rfl).mp h
  simp only [World.host, Prod.mk.injEq] at hhost
  exact ⟨hhost.1.symm, hhost.2.symm⟩

def World.textAt (d : Disk) (path : Text) : Except Fault Text :=
  (ask path (d.read path)).bind Machine.textOf

theorem World.textAt_eq_ok_iff {d : Disk} {path text : Text} :
    textAt d path = .ok text ↔ Path.holdsNull path = false ∧
      ∃ content, d.read path = .ok content ∧ Machine.textOf content = .ok text := by
  unfold textAt
  cases hask : ask path (d.read path) with
  | ok content =>
    obtain ⟨hnull, hread⟩ := ask_eq_ok_iff.mp hask
    simp [hnull, hread, Except.bind]
  | error e =>
    simp only [Except.bind, reduceCtorEq, false_iff, not_and, not_exists]
    intro hnull content hread
    rw [ask_eq_ok_iff.mpr ⟨hnull, hread⟩] at hask
    cases hask

theorem eq_of_goes_readText {path : Text} {r : Except Fault Text}
    (h : (Machine.readText path).run.Goes (World.turns test) world r world') :
    r = World.textAt world.disk path ∧ world' = world := by
  rw [World.textAt]
  rcases goes_bind_run_iff.mp h with ⟨e, hread, rfl⟩ | ⟨content, u, hread, hrest⟩
  · obtain ⟨heq, rfl⟩ := eq_of_goes_read hread
    rw [← heq]
    exact ⟨rfl, rfl⟩
  obtain ⟨heq, rfl⟩ := eq_of_goes_read hread
  rw [← heq]
  simp only [Except.bind]
  split at hrest
  next hfound =>
    rw [hfound]
    exact goes_pure_run_iff.mp hrest
  next hfound =>
    rw [hfound]
    exact goes_throw_run_iff.mp hrest

theorem of_goes_readText {step : Step Answer World} [World.Tame step] {path text : Text}
    (h : (Machine.readText path).run.Goes step world (.ok text) world') :
    Path.holdsNull path = false ∧
      ∃ content, world.disk.read path = .ok content ∧ Machine.textOf content = .ok text := by
  rcases goes_bind_run_iff.mp h with ⟨e, -, heq⟩ | ⟨content, u, hread, hrest⟩
  · cases heq
  obtain ⟨hnull, hcontent⟩ := (World.Tame.falters (goes_question_iff.mp hread)).of_read
  refine ⟨hnull, content, hcontent, ?_⟩
  split at hrest
  next hfound =>
    obtain ⟨heq, -⟩ := goes_pure_run_iff.mp hrest
    rw [hfound, Except.ok.inj heq]
  next => cases (goes_throw_run_iff.mp hrest).1

theorem of_goes_write {step : Step Answer World} [World.Tame step] {path : Text} {content : Bytes}
    (h : (Machine.write path content).run.Goes step world (.ok ()) world') :
    Path.holdsNull path = false ∧ ∃ now, world.disk.write now path content = .ok world'.disk :=
  (World.Tame.falters (goes_question_iff.mp h)).of_write

end

namespace LocalWorkspace

abbrev steps (w : LocalWorkspace) (step : Step Answer World) : Step Reply (Stores × World) :=
  relayed w.reply step

section

variable {step : Step Answer World} {w : LocalWorkspace} {stores stores' : Stores}
  {world world' : World}

theorem goes_lift_iff {α : Type} {d : Routine α} {a : α} :
    ((StateT.lift d : StateT Stores Routine α).run stores).Goes step world (a, stores') world' ↔
      d.Goes step world a world' ∧ stores' = stores := by
  change (d >>= fun a => pure (a, stores) : Routine (α × Stores)).Goes _ _ _ _ ↔ _
  rw [goes_bind_iff]
  constructor
  · rintro ⟨b, u, hd, hpure⟩
    obtain ⟨heq, rfl⟩ := goes_pure_iff.mp hpure
    cases heq
    exact ⟨hd, rfl⟩
  · rintro ⟨hd, rfl⟩
    exact ⟨a, world', hd, goes_pure_iff.mpr ⟨rfl, rfl⟩⟩

theorem goes_withBackups_iff {α : Type} {work : BackupStore.Work α} {r : Except Fault α} :
    ((withBackups work).run stores).Goes step world (r, stores') world' ↔
      ∃ backups, (work.run.run stores.backups).Goes step world (r, backups) world' ∧
        stores' = { stores with backups } := by
  change (work.run.run stores.backups >>= fun p => pure (p.1, { stores with backups := p.2 }) :
    Routine (Except Fault α × Stores)).Goes _ _ _ _ ↔ _
  rw [goes_bind_iff]
  constructor
  · rintro ⟨⟨found, backups⟩, u, hwork, hpure⟩
    obtain ⟨heq, rfl⟩ := goes_pure_iff.mp hpure
    cases heq
    exact ⟨backups, hwork, rfl⟩
  · rintro ⟨backups, hwork, rfl⟩
    exact ⟨(r, backups), world', hwork, goes_pure_iff.mpr ⟨rfl, rfl⟩⟩

theorem goes_withLedger_iff {α : Type} {work : Ledger.Work α} {r : Except Fault α} :
    ((withLedger work).run stores).Goes step world (r, stores') world' ↔
      ∃ ledger, (work.run.run stores.ledger).Goes step world (r, ledger) world' ∧
        stores' = { stores with ledger } := by
  change (work.run.run stores.ledger >>= fun p => pure (p.1, { stores with ledger := p.2 }) :
    Routine (Except Fault α × Stores)).Goes _ _ _ _ ↔ _
  rw [goes_bind_iff]
  constructor
  · rintro ⟨⟨found, ledger⟩, u, hwork, hpure⟩
    obtain ⟨heq, rfl⟩ := goes_pure_iff.mp hpure
    cases heq
    exact ⟨ledger, hwork, rfl⟩
  · rintro ⟨ledger, hwork, rfl⟩
    exact ⟨(r, ledger), world', hwork, goes_pure_iff.mpr ⟨rfl, rfl⟩⟩

theorem still_of_steps [World.Tame step] {q : Request} {r : Reply q} (hq : q.isEffect = false)
    (h : relayed w.reply step q (stores, world) r (stores', world')) :
    world'.disk = world.disk ∧ stores' = stores := by
  have hlift : ∀ {α : Type} {d : Routine α} {a : α}, Still d →
      ((StateT.lift d : StateT Stores Routine α).run stores).Goes step world (a, stores') world' →
        world'.disk = world.disk ∧ stores' = stores := by
    intro α d a hd h
    obtain ⟨hgoes, hstores⟩ := goes_lift_iff.mp h
    exact ⟨World.disk_of_still hd hgoes, hstores⟩
  cases q with
  | fileExists path =>
    have hd : Still (w.fileExists path).run :=
      w.still_withPath path fun _ => asks_lift_run (still_call rfl)
    exact hlift hd h
  | readText path => exact hlift (w.still_withPath path still_readText) h
  | findByName name => exact hlift (w.still_findByName name) h
  | confirm prompt options => exact hlift (Console.still_confirm prompt options) h
  | view path =>
    have hd : Still (do Machine.view path; return (.ok () : Except Fault Unit)) :=
      asks_bind (still_call rfl) fun _ => trivial
    exact hlift hd h
  | clock => exact hlift (still_call rfl) h
  | tell message => exact hlift (still_call rfl) h
  | log entry => exact hlift (still_call rfl) h
  | absolutePath path =>
    obtain ⟨heq, rfl⟩ := goes_pure_iff.mp h
    cases heq
    exact ⟨rfl, rfl⟩
  | detail message =>
    obtain ⟨heq, rfl⟩ := goes_pure_iff.mp h
    cases heq
    exact ⟨rfl, rfl⟩
  | writeText => cases hq
  | makeFolder => cases hq
  | backup => cases hq
  | record => cases hq

theorem surroundings_of_steps [World.Tame step] {q : Request} {r : Reply q}
    {before after : Stores × World} (h : relayed w.reply step q before r after) :
    after.2.toSurroundings = before.2.toSurroundings :=
  World.surroundings_of_goes h

theorem surroundings_of_follows [World.Tame step] {xs : List (Exchange Reply)}
    {before after : Stores × World} (h : Follows (relayed w.reply step) before xs after) :
    after.2.toSurroundings = before.2.toSurroundings := by
  have hkeeps : ∀ (q : Request) (s : Stores × World) (r : Reply q) (t : Stores × World), True →
      relayed w.reply step q s r t → t.2.toSurroundings = s.2.toSurroundings :=
    fun _ _ _ _ _ hstep => surroundings_of_steps hstep
  have hsame := Follows.keeps hkeeps (fun _ _ => trivial) h
  exact hsame

theorem still_of_follows [World.Tame step] {xs : List (Exchange Reply)}
    (hxs : ∀ x ∈ xs, x.1.isEffect = false)
    (h : Follows (relayed w.reply step) (stores, world) xs (stores', world')) :
    world'.disk = world.disk ∧ stores' = stores := by
  have hkeeps : ∀ (q : Request) (s : Stores × World) (r : Reply q) (t : Stores × World),
      q.isEffect = false → relayed w.reply step q s r t → (t.2.disk, t.1) = (s.2.disk, s.1) := by
    intro q s r t hq hstep
    obtain ⟨hdisk, hstores⟩ := still_of_steps hq hstep
    rw [hdisk, hstores]
  simpa using Follows.keeps hkeeps hxs h

theorem exists_of_withPath {α : Type} {path : Text} {act : Text → Errand α} {a : α}
    (h : (w.withPath path act).run.Goes step world (.ok a) world') :
    ∃ absolute, w.absolutePath path = .ok absolute ∧
      (act absolute).run.Goes step world (.ok a) world' := by
  unfold withPath at h
  split at h
  next absolute habsolute => exact ⟨absolute, habsolute, h⟩
  next => cases (goes_throw_run_iff.mp h).1

theorem of_steps_readText [World.Tame step] {path text : Text}
    (h : relayed w.reply step (.readText path) (stores, world) (.ok text) (stores', world')) :
    ∃ absolute content, w.absolutePath path = .ok absolute ∧
      world.disk.read absolute = .ok content ∧ Machine.textOf content = .ok text := by
  obtain ⟨hgoes, -⟩ := goes_lift_iff.mp h
  obtain ⟨absolute, habsolute, hread⟩ := exists_of_withPath hgoes
  obtain ⟨-, content, hcontent, htext⟩ := of_goes_readText hread
  exact ⟨absolute, content, habsolute, hcontent, htext⟩

theorem eq_of_steps_absolutePath {path : Text} {r : Except Fault Text} {before after : Stores × World}
    (h : relayed w.reply step (.absolutePath path) before r after) :
    r = w.absolutePath path ∧ after = before := by
  obtain ⟨heq, hworld⟩ := goes_pure_iff.mp h
  obtain ⟨hr, hstores⟩ := Prod.mk.inj heq
  exact ⟨hr, Prod.ext hstores hworld⟩

theorem of_steps_backup {path content : Text} {r : Except Fault (Option Text)}
    {before after : Stores × World} (h : relayed w.reply step (.backup path content) before r after) :
    ∃ backups, ((BackupStore.backup path content).run.run before.1.backups).Goes step before.2
      (r, backups) after.2 ∧ after.1 = { before.1 with backups } :=
  goes_withBackups_iff.mp h

theorem of_steps_record {entry : HistoryEntry} {r : Except Fault Bool}
    {before after : Stores × World} (h : relayed w.reply step (.record entry) before r after) :
    ∃ found ledger, ((Ledger.record entry).run.run before.1.ledger).Goes step before.2
      (found, ledger) after.2 ∧ after.1 = { before.1 with ledger } := by
  obtain ⟨ledger, hwork, hstores⟩ := goes_withLedger_iff.mp h
  rcases goes_bind_work_iff.mp hwork with ⟨e, hrecord, -⟩ | ⟨found, kept, u, hrecord, hlast⟩
  · exact ⟨_, ledger, hrecord, hstores⟩
  · obtain ⟨⟨-, rfl⟩, rfl⟩ := goes_pure_work_iff.mp hlast
    exact ⟨_, ledger, hrecord, hstores⟩

theorem of_steps_writeText [World.Tame step] {path text : Text}
    (h : w.steps step (.writeText path text) (stores, world) (.ok ()) (stores', world')) :
    ∃ absolute now, w.absolutePath path = .ok absolute ∧ Path.holdsNull absolute = false ∧
      world.disk.write now absolute (Utf8.encode text) = .ok world'.disk := by
  obtain ⟨hgoes, -⟩ := goes_lift_iff.mp h
  obtain ⟨absolute, habsolute, hwrite⟩ := exists_of_withPath hgoes
  obtain ⟨hnull, now, hdisk⟩ := of_goes_write hwrite
  exact ⟨absolute, now, habsolute, hnull, hdisk⟩

theorem goes_hold_iff {α : Type} {session : Session α} {a : α} :
    (w.hold stores session).Goes step world a world' ↔
      ∃ stores', session.Goes (w.steps step) (stores, world) a (stores', world') := by
  unfold hold
  rw [goes_bind_iff]
  constructor
  · rintro ⟨⟨b, stores'⟩, u, hrelay, hpure⟩
    obtain ⟨rfl, rfl⟩ := goes_pure_iff.mp hpure
    exact ⟨stores', goes_relay_iff.mp hrelay⟩
  · rintro ⟨stores', h⟩
    exact ⟨(a, stores'), world', goes_relay_iff.mpr h, goes_pure_iff.mpr ⟨rfl, rfl⟩⟩

/-- What happens on a machine to a file that a block updates: it is read, its old content is kept,
and the new content is written. -/
structure Updates (w : LocalWorkspace) (step : Step Answer World) (settings : Settings)
    (company : Company) (block : Block) (target path : Text) (bytes : Bytes) (existing : Text)
    (revision : Revision) (keeping : List (Exchange Reply)) (before after : Stores × World) :
    Prop where
  path_eq : w.absolutePath target = .ok path
  proper : Path.holdsNull path = false
  read : before.2.disk.read path = .ok bytes
  text : Machine.textOf bytes = .ok existing
  revise : revise settings block.code existing = .ok revision
  keeps : Keeping settings company target existing revision.how keeping
  goes : ∃ asked kept now, asked.2.toSurroundings = before.2.toSurroundings ∧
    asked.2.disk = before.2.disk ∧ asked.1 = before.1 ∧
    Follows (w.steps step) asked keeping kept ∧
    kept.2.disk.write now path (Utf8.encode revision.content) = .ok after.2.disk

/-- A block that has updated a file, but for a rehearsal, has gone this way. -/
theorem exists_updates [World.Tame step] {settings : Settings} {company : Company} {block : Block}
    {result : BlockResult} {xs : List (Exchange Reply)} {before after : Stores × World}
    (hcourse : Course settings company block xs result)
    (hfollows : Follows (w.steps step) before xs after) (hstatus : result.status = .updated)
    (hdry : settings.dryRun = false) :
    ∃ path bytes existing revision keeping,
      w.Updates step settings company block result.path path bytes existing revision keeping
        before after := by
  cases hcourse with
  | unresolved _ _ _ hfailed =>
    rw [hstatus] at hfailed
    cases hfailed
  | @resolved seek ys target _ hseek hvisit =>
    cases hvisit with
    | idle _ _ hrehearsed =>
      rw [hrehearsed (by rw [hstatus]; rfl)] at hdry
      cases hdry
    | creates reply _ _ _ _ _ hcreated =>
      rw [hstatus] at hcreated
      cases reply with
      | ok => cases hcreated
      | error => cases hcreated
    | @updates existing revision told asked keeping last _ reply hpath _ hrevise htold hasked
        hkeeping hlast hupdated =>
      rw [hstatus] at hupdated
      cases reply with
      | error => cases hupdated
      | ok =>
        obtain ⟨found, hseek', h⟩ := follows_append.mp hfollows
        obtain ⟨looked, hexists, read, hread, h⟩ := h
        obtain ⟨noted, htold', h⟩ := follows_append.mp h
        obtain ⟨agreed, hasked', h⟩ := follows_append.mp h
        obtain ⟨kept, hkeeping', written, hwrite, hlast'⟩ := follows_append.mp h
        have hfound := still_of_follows (looking_of_resolveTarget hseek).uneffective hseek'
        have hlooked := still_of_steps rfl hexists
        have hread' := still_of_steps rfl hread
        have hnoted := still_of_follows htold.telling.looking.uneffective htold'
        have hagreed := still_of_follows hasked.uneffective hasked'
        have hlast' := still_of_follows hlast.looking.uneffective hlast'
        obtain ⟨path, bytes, habsolute, hbytes, htext⟩ := of_steps_readText hread
        obtain ⟨path', now, habsolute', hproper, hdisk⟩ := of_steps_writeText hwrite
        obtain rfl := Except.ok.inj (habsolute.symm.trans habsolute')
        rw [hlooked.1, hfound.1] at hbytes
        rw [← hlast'.1] at hdisk
        refine ⟨path, bytes, existing, revision, keeping, ?_⟩
        rw [hpath]
        refine ⟨habsolute, hproper, hbytes, htext, hrevise, hkeeping, agreed, kept, now, ?_, ?_, ?_,
          hkeeping', hdisk⟩
        · rw [surroundings_of_follows hasked', surroundings_of_follows htold',
            surroundings_of_steps hread, surroundings_of_steps hexists,
            surroundings_of_follows hseek']
        · rw [hagreed.1, hnoted.1, hread'.1, hlooked.1, hfound.1]
        · rw [hagreed.2, hnoted.2, hread'.2, hlooked.2, hfound.2]

/-- A session for a text with one block that has updated a file has gone this way, between what leaves
the disk alone. -/
theorem exists_updates_of_hold [World.Tame step] {settings : Settings} {company : Company}
    {text : Text} {summary : Summary} {result : BlockResult}
    (h : (w.hold stores (applyText settings company text)).Goes step world summary world')
    (hresults : summary.results = [result]) (hstatus : result.status = .updated)
    (hdry : settings.dryRun = false) :
    ∃ block path bytes existing revision keeping ready done stores',
      ready.toSurroundings = world.toSurroundings ∧ ready.disk = world.disk ∧
      world'.disk = done.disk ∧
      w.Updates step settings company block result.path path bytes existing revision keeping
        (stores, ready) (stores', done) := by
  obtain ⟨last, hgoes⟩ := goes_hold_iff.mp h
  obtain ⟨xs, hplays, hfollows⟩ := goes_iff_plays.mp hgoes
  obtain ⟨block, logged, ys, viewing, rfl, hlogged, hcourse, hviewing⟩ :=
    exists_course_of_applyText hplays hresults
  obtain ⟨⟨begun, ready⟩, hlogged', hrest⟩ := follows_append.mp hfollows
  obtain ⟨⟨stores', done⟩, hcourse', hviewing'⟩ := follows_append.mp hrest
  obtain ⟨hready, rfl⟩ := still_of_follows hlogged.telling.looking.uneffective hlogged'
  obtain ⟨hdone, -⟩ := still_of_follows hviewing.uneffective hviewing'
  obtain ⟨path, bytes, existing, revision, keeping, hupdates⟩ :=
    exists_updates hcourse hcourse' hstatus hdry
  exact ⟨block, path, bytes, existing, revision, keeping, ready, done, stores',
    surroundings_of_follows hlogged', hready, hdone, hupdates⟩

end

end LocalWorkspace

end CodeGraft
