import CodeGraft.Apply.Batch
import CodeGraft.Proofs.Traces

/-!
# What a block can do

All that a session can do for one block is said once, by `Course`: how the target is found, and what
is done there. A file is written at one place of a course only; in front of it stand the question
that was agreed to and, for a file that exists, the backup and its record. Laws about batches follow
by the cases of a course.
-/

namespace CodeGraft

open Text Dialogue

namespace Request

def isTelling : Request → Bool
  | tell _ => true
  | detail _ => true
  | log _ => true
  | _ => false

/-- Whether a request takes no part in writing a file, backing it up and recording its change. -/
def isQuiet : Request → Bool
  | writeText _ _ => false
  | absolutePath _ => false
  | backup _ _ => false
  | record _ => false
  | _ => true

def isLooking : Request → Bool
  | fileExists _ => true
  | findByName _ => true
  | tell _ => true
  | detail _ => true
  | log _ => true
  | _ => false

/-- Whether a request shows a file to the user, or tells something. -/
def isShowing : Request → Bool
  | view _ => true
  | tell _ => true
  | detail _ => true
  | log _ => true
  | _ => false

/-- Whether a request notes something that the user need not hear. -/
def isNoting : Request → Bool
  | detail _ => true
  | log _ => true
  | _ => false

/-- Whether a request serves to keep the old content of a file. -/
def isKeeping : Request → Bool
  | absolutePath _ => true
  | backup _ _ => true
  | clock => true
  | record _ => true
  | tell _ => true
  | detail _ => true
  | log _ => true
  | _ => false

/-- Whether a request changes the workspace or one of the stores. -/
def isEffect : Request → Bool
  | writeText _ _ => true
  | makeFolder _ => true
  | backup _ _ => true
  | record _ => true
  | _ => false

def isAsking : Request → Bool
  | confirm _ _ => true
  | _ => false

theorem isQuiet_of_isLooking {q : Request} (h : q.isLooking = true) : q.isQuiet = true := by
  cases q <;> first | rfl | cases h

theorem isQuiet_of_isShowing {q : Request} (h : q.isShowing = true) : q.isQuiet = true := by
  cases q <;> first | rfl | cases h

theorem isLooking_of_isTelling {q : Request} (h : q.isTelling = true) : q.isLooking = true := by
  cases q <;> first | rfl | cases h

theorem isShowing_of_isTelling {q : Request} (h : q.isTelling = true) : q.isShowing = true := by
  cases q <;> first | rfl | cases h

theorem isTelling_of_isNoting {q : Request} (h : q.isNoting = true) : q.isTelling = true := by
  cases q <;> first | rfl | cases h

theorem isKeeping_of_isTelling {q : Request} (h : q.isTelling = true) : q.isKeeping = true := by
  cases q <;> first | rfl | cases h

theorem not_isEffect_of_isLooking {q : Request} (h : q.isLooking = true) :
    q.isEffect = false := by
  cases q <;> first | rfl | cases h

theorem not_isEffect_of_isShowing {q : Request} (h : q.isShowing = true) :
    q.isEffect = false := by
  cases q <;> first | rfl | cases h

theorem not_isAsking_of_isLooking {q : Request} (h : q.isLooking = true) :
    (!q.isAsking) = true := by
  cases q <;> first | rfl | cases h

theorem not_isAsking_of_isKeeping {q : Request} (h : q.isKeeping = true) :
    (!q.isAsking) = true := by
  cases q <;> first | rfl | cases h

end Request

/-- Exchanges in which something is told, and nothing else. -/
def Telling (xs : List (Exchange Reply)) : Prop := ∀ x ∈ xs, x.1.isTelling = true

/-- Exchanges that take no part in writing, backing up and recording. -/
def Quiet (xs : List (Exchange Reply)) : Prop := ∀ x ∈ xs, x.1.isQuiet = true

def Within (kind : Request → Bool) (xs : List (Exchange Reply)) : Prop :=
  ∀ x ∈ xs, kind x.1 = true

abbrev Looking : List (Exchange Reply) → Prop := Within Request.isLooking

/-- Exchanges in which files are shown to the user, and things are told. -/
abbrev Showing : List (Exchange Reply) → Prop := Within Request.isShowing

abbrev Noting : List (Exchange Reply) → Prop := Within Request.isNoting

abbrev Unasked : List (Exchange Reply) → Prop := Within fun q => !q.isAsking

section

variable {kind : Request → Bool} {xs ys : List (Exchange Reply)}

theorem Within.nil : Within kind [] := by simp [Within]

theorem Within.cons {q : Request} {r : Reply q} (hq : kind q = true) (h : Within kind xs) :
    Within kind (⟨q, r⟩ :: xs) :=
  List.forall_mem_cons.mpr ⟨hq, h⟩

theorem Within.append (hx : Within kind xs) (hy : Within kind ys) : Within kind (xs ++ ys) :=
  List.forall_mem_append.mpr ⟨hx, hy⟩

end

theorem Telling.nil : Telling [] := by simp [Telling]

theorem Telling.cons {q : Request} {r : Reply q} {xs : List (Exchange Reply)}
    (hq : q.isTelling = true) (h : Telling xs) : Telling (⟨q, r⟩ :: xs) := by
  intro x hx
  rcases List.mem_cons.mp hx with rfl | hx
  · exact hq
  · exact h x hx

theorem Telling.append {xs ys : List (Exchange Reply)} (hx : Telling xs) (hy : Telling ys) :
    Telling (xs ++ ys) := by
  intro x h
  exact (List.mem_append.mp h).elim (hx x) (hy x)

theorem Looking.quiet {xs : List (Exchange Reply)} (h : Looking xs) : Quiet xs :=
  fun x hx => Request.isQuiet_of_isLooking (h x hx)

theorem Looking.unasked {xs : List (Exchange Reply)} (h : Looking xs) : Unasked xs :=
  fun x hx => Request.not_isAsking_of_isLooking (h x hx)

theorem Looking.uneffective {xs : List (Exchange Reply)} (h : Looking xs) :
    ∀ x ∈ xs, x.1.isEffect = false :=
  fun x hx => Request.not_isEffect_of_isLooking (h x hx)

theorem Telling.looking {xs : List (Exchange Reply)} (h : Telling xs) : Looking xs :=
  fun x hx => Request.isLooking_of_isTelling (h x hx)

theorem Telling.quiet {xs : List (Exchange Reply)} (h : Telling xs) : Quiet xs := h.looking.quiet

theorem Showing.quiet {xs : List (Exchange Reply)} (h : Showing xs) : Quiet xs :=
  fun x hx => Request.isQuiet_of_isShowing (h x hx)

theorem Showing.uneffective {xs : List (Exchange Reply)} (h : Showing xs) :
    ∀ x ∈ xs, x.1.isEffect = false := fun x hx => Request.not_isEffect_of_isShowing (h x hx)

theorem Telling.showing {xs : List (Exchange Reply)} (h : Telling xs) : Showing xs :=
  fun x hx => Request.isShowing_of_isTelling (h x hx)

theorem Noting.telling {xs : List (Exchange Reply)} (h : Noting xs) : Telling xs :=
  fun x hx => Request.isTelling_of_isNoting (h x hx)

theorem Quiet.nil : Quiet [] := by simp [Quiet]

theorem Quiet.cons {q : Request} {r : Reply q} {xs : List (Exchange Reply)}
    (hq : q.isQuiet = true) (h : Quiet xs) : Quiet (⟨q, r⟩ :: xs) := by
  intro x hx
  rcases List.mem_cons.mp hx with rfl | hx
  · exact hq
  · exact h x hx

theorem Quiet.append {xs ys : List (Exchange Reply)} (hx : Quiet xs) (hy : Quiet ys) :
    Quiet (xs ++ ys) := by
  intro x h
  exact (List.mem_append.mp h).elim (hx x) (hy x)

/-! ### The parts of a course -/

inductive Agreement (needed : Bool) (question : Text × List Text) :
    List (Exchange Reply) → Prop
  | unasked (h : needed = false) : Agreement needed question []
  | agreed (answer : Text) (h : needed = true) (hfirst : question.2.head? = some answer) :
      Agreement needed question [⟨.confirm question.1 question.2, .ok (some answer)⟩]

theorem Agreement.quiet {needed : Bool} {question : Text × List Text}
    {xs : List (Exchange Reply)} (h : Agreement needed question xs) : Quiet xs := by
  cases h with
  | unasked => exact .nil
  | agreed => exact .cons rfl .nil

theorem Agreement.uneffective {needed : Bool} {question : Text × List Text}
    {xs : List (Exchange Reply)} (h : Agreement needed question xs) :
    ∀ x ∈ xs, x.1.isEffect = false := by
  cases h <;> simp [Request.isEffect]

/-- The exchanges of a visit in front of its question, with the question. It is about a change of a
file that was read, or about a file that was not there. -/
inductive Leading (settings : Settings) (target : Text) :
    List (Exchange Reply) → Text × List Text → Prop
  | change {told : List (Exchange Reply)} (existing content : Text) (htold : Noting told) :
      Leading settings target
        (⟨.fileExists target, .ok true⟩ :: ⟨.readText target, .ok existing⟩ :: told)
        (changeQuestion settings target existing content)
  | creation :
      Leading settings target [⟨.fileExists target, .ok false⟩]
        (glue ["File \"", target, "\" does not exist. Create a new file?"], fileOptions)

/-- What the question of a visit leads to. An answer that does not agree ends the visit, and nothing
but telling comes behind it. -/
inductive Heeds (settings : Settings) (target : Text) :
    List (Exchange Reply) → BlockResult → Prop
  | unasked {xs : List (Exchange Reply)} {result : BlockResult} (h : Unasked xs) :
      Heeds settings target xs result
  | asked {front behind : List (Exchange Reply)} {question : Text × List Text}
      {result : BlockResult} (reply : Except Fault (Option Text))
      (hfront : Leading settings target front question) (hbehind : Unasked behind)
      (hdeclined : ∀ answer, reply = .ok answer → answer ≠ question.2.head? →
        result.status = .skipped ∧ Telling behind) :
      Heeds settings target (front ++ ⟨.confirm question.1 question.2, reply⟩ :: behind) result

theorem Leading.quiet {settings : Settings} {target : Text} {question : Text × List Text}
    {front : List (Exchange Reply)} (h : Leading settings target front question) : Quiet front := by
  cases h with
  | change _ _ htold => exact .cons rfl (.cons rfl htold.telling.quiet)
  | creation => exact .cons rfl .nil

theorem Leading.unasked {settings : Settings} {target : Text} {question : Text × List Text}
    {front : List (Exchange Reply)} (h : Leading settings target front question) :
    Unasked front := by
  cases h with
  | change _ _ htold =>
    exact .cons rfl (.cons rfl htold.telling.looking.unasked)
  | creation => exact .cons rfl .nil

theorem Heeds.of_agreement {settings : Settings} {target : Text} {question : Text × List Text}
    {needed : Bool} {front asked behind : List (Exchange Reply)} (result : BlockResult)
    (hfront : Leading settings target front question) (hasked : Agreement needed question asked)
    (hbehind : Unasked behind) : Heeds settings target (front ++ (asked ++ behind)) result := by
  cases hasked with
  | unasked => exact .unasked (hfront.unasked.append hbehind)
  | agreed answer _ hfirst =>
    refine .asked (.ok (some answer)) hfront hbehind ?_
    rintro _ ⟨⟩ hother
    exact absurd hfirst.symm hother

/-- The path and the reference of a backup, if it was made and the reference is no empty text. -/
def kept? : Except Fault (Text × Option Text) → Option (Text × Text)
  | .ok (path, some ref) => if ref.isEmpty then none else some (path, ref)
  | _ => none

/-- The exchanges of one attempt to back up the old content of a file, with what it yields. Where the
workspace can tell absolute paths the backup goes under that of the file. -/
inductive BackupAttempt (company : Company) (target existing : Text) :
    List (Exchange Reply) → Option (Text × Text) → Prop
  | unplaced (e : Fault) (h : company.resolvesPaths = true) :
      BackupAttempt company target existing [⟨.absolutePath target, .error e⟩] none
  | placed (path : Text) (reply : Except Fault (Option Text))
      (h : company.resolvesPaths = true) :
      BackupAttempt company target existing
        [⟨.absolutePath target, .ok path⟩, ⟨.backup path existing, reply⟩]
        (kept? (reply.map (path, ·)))
  | direct (reply : Except Fault (Option Text)) (h : company.resolvesPaths = false) :
      BackupAttempt company target existing [⟨.backup target existing, reply⟩]
        (kept? (reply.map (target, ·)))

/-- The entry for a change of the file at `path`, whose old content is kept under `ref`. -/
def changeEntry (path ref how : Text) (now : Instant) : HistoryEntry :=
  HistoryEntry.ofTexts path ref (glue ["Applied code block (", how, ")"]) now.extended

/-- The exchanges behind a backup attempt that yielded `kept`. The change is recorded only if there is
a backup, and someone to record it. -/
inductive Recording (company : Company) (how : Text) :
    (kept : Option (Text × Text)) → List (Exchange Reply) → Prop
  | lost {told : List (Exchange Reply)} (htold : Telling told) : Recording company how none told
  | unasked {kept : Text × Text} (h : company.records = false) :
      Recording company how (some kept) []
  | asked {path ref : Text} (now : Instant) (reply : Except Fault Bool)
      {told : List (Exchange Reply)} (h : company.records = true) (htold : Telling told) :
      Recording company how (some (path, ref))
        (⟨.clock, now⟩ :: ⟨.record (changeEntry path ref how now), reply⟩ :: told)

/-- The exchanges between the agreement to a change and the change itself. -/
inductive Keeping (settings : Settings) (company : Company) (target existing how : Text) :
    List (Exchange Reply) → Prop
  | unasked (h : (settings.backups && company.backups) = false) :
      Keeping settings company target existing how []
  | attempted {attempt recording : List (Exchange Reply)} {kept : Option (Text × Text)}
      (h : (settings.backups && company.backups) = true)
      (hattempt : BackupAttempt company target existing attempt kept)
      (hrecording : Recording company how kept recording) :
      Keeping settings company target existing how (attempt ++ recording)

theorem Keeping.within {settings : Settings} {company : Company} {target existing how : Text}
    {xs : List (Exchange Reply)} (h : Keeping settings company target existing how xs) :
    Within Request.isKeeping xs := by
  cases h with
  | unasked => exact .nil
  | attempted _ hattempt hrecording =>
    refine Within.append ?_ ?_
    · cases hattempt with
      | unplaced => exact .cons rfl .nil
      | placed => exact .cons rfl (.cons rfl .nil)
      | direct => exact .cons rfl .nil
    · cases hrecording with
      | lost htold => exact fun x hx => Request.isKeeping_of_isTelling (htold x hx)
      | unasked => exact .nil
      | asked _ _ _ htold =>
        exact .cons rfl (.cons rfl fun x hx => Request.isKeeping_of_isTelling (htold x hx))

/-- The status of a block whose file was written with the given reply. -/
def savedAs (success : Status) : Except Fault Unit → Status
  | .ok () => success
  | .error _ => .failed

/-- All that can be done for a block at its target. -/
inductive Visit (settings : Settings) (company : Company) (block : Block) (target : Text) :
    List (Exchange Reply) → BlockResult → Prop
  | idle {xs : List (Exchange Reply)} {result : BlockResult} (hpath : result.path = target)
      (hquiet : Quiet xs) (hdry : result.status.isSuccess = true → settings.dryRun = true)
      (hheeds : Heeds settings target xs result) : Visit settings company block target xs result
  | creates {asked folder last : List (Exchange Reply)} {result : BlockResult}
      (reply : Except Fault Unit) (hpath : result.path = target)
      (hdry : settings.dryRun = false)
      (hasked : Agreement (settings.confirmNew && company.confirms)
        (glue ["File \"", target, "\" does not exist. Create a new file?"], fileOptions) asked)
      (hfolder : folder = [] ∨ folder = [⟨.makeFolder (Path.dirname target), .ok ()⟩])
      (hlast : Telling last) (hstatus : result.status = savedAs .created reply) :
      Visit settings company block target
        (⟨.fileExists target, .ok false⟩ ::
          (asked ++ (folder ++ ⟨.writeText target block.code, reply⟩ :: last))) result
  | updates {existing : Text} {revision : Revision} {told asked keeping last : List (Exchange Reply)}
      {result : BlockResult} (reply : Except Fault Unit) (hpath : result.path = target)
      (hdry : settings.dryRun = false)
      (hrevise : revise settings block.code existing = .ok revision) (htold : Noting told)
      (hasked : Agreement company.confirms
        (changeQuestion settings target existing revision.content) asked)
      (hkeeping : Keeping settings company target existing revision.how keeping)
      (hlast : Telling last) (hstatus : result.status = savedAs .updated reply) :
      Visit settings company block target
        (⟨.fileExists target, .ok true⟩ :: ⟨.readText target, .ok existing⟩ ::
          (told ++ (asked ++ (keeping ++ ⟨.writeText target revision.content, reply⟩ :: last))))
        result

/-- All that can be done for a block. -/
inductive Course (settings : Settings) (company : Company) (block : Block) :
    List (Exchange Reply) → BlockResult → Prop
  | unresolved {seek last : List (Exchange Reply)} {fault : Fault} {result : BlockResult}
      (hseek : (resolveTarget settings block.path).run.Plays seek (.error fault))
      (hlast : Telling last) (hpath : result.path = block.path)
      (hstatus : result.status = .failed) : Course settings company block (seek ++ last) result
  | resolved {seek xs : List (Exchange Reply)} {target : Text} {result : BlockResult}
      (hseek : (resolveTarget settings block.path).run.Plays seek (.ok target))
      (hvisit : Visit settings company block target xs result) :
      Course settings company block (seek ++ xs) result

namespace Session

variable {xs : List (Exchange Reply)} {u : Unit}

theorem telling_of_tell {message : Text} (h : (tell message).Plays xs u) : Telling xs := by
  rw [plays_ask_iff.mp h]
  exact .cons rfl .nil

theorem noting_of_detail {message : Text} (h : (detail message).Plays xs u) : Noting xs := by
  rw [plays_ask_iff.mp h]
  exact .cons rfl .nil

theorem noting_of_log {level : Level} {channel : Channel} {message : Text}
    (h : (log level channel message).Plays xs u) : Noting xs := by
  rw [plays_ask_iff.mp h]
  exact .cons rfl .nil

theorem telling_of_log {level : Level} {channel : Channel} {message : Text}
    (h : (log level channel message).Plays xs u) : Telling xs := (noting_of_log h).telling

theorem within_of_each {kind : Request → Bool} {α : Type} {act : α → Session Unit}
    {items : List α} (hact : ∀ a ys u, (act a).Plays ys u → Within kind ys)
    (h : (each act items).Plays xs u) : Within kind xs :=
  forall_of_plays_each (fun a _ ys u hy => hact a ys u hy) h

theorem within_of_bind {kind : Request → Bool} {α β : Type} {d : Session α} {f : α → Session β}
    {b : β} (hd : ∀ ys a, d.Plays ys a → Within kind ys)
    (hf : ∀ a zs, (f a).Plays zs b → Within kind zs) (h : (d >>= f).Plays xs b) :
    Within kind xs := by
  obtain ⟨a, ys, zs, rfl, hy, hz⟩ := plays_bind_iff.mp h
  exact (hd ys a hy).append (hf a zs hz)

end Session

open Session

variable {settings : Settings} {company : Company} {block : Block} {target : Text}
  {xs : List (Exchange Reply)}

theorem noting_of_logAll {records : List LogRecord} {u : Unit}
    (h : (logAll records).Plays xs u) : Noting xs := by
  refine within_of_each ?_ h
  intro r ys u hy
  rw [plays_ask_iff.mp hy]
  exact .cons rfl .nil

theorem noting_of_tellRevision {code existing : Text} {u : Unit}
    (h : (tellRevision settings code existing).Plays xs u) : Noting xs := by
  unfold tellRevision at h
  refine within_of_bind (fun ys _ => noting_of_logAll) ?_ h
  intro _ zs hz
  refine within_of_bind (fun ys _ => noting_of_detail) ?_ hz
  intro _ ws hw
  cases hextent : (decidingRule code).extent with
  | whole =>
    rw [hextent] at hw
    rw [(plays_pure_iff.mp hw).1]
    exact .nil
  | part =>
    rw [hextent] at hw
    refine within_of_bind ?_ ?_ hw
    · intro ys _ hy
      exact within_of_each (fun _ _ _ => noting_of_logAll) hy
    · intro _ ys hy
      exact within_of_each (fun _ _ _ => noting_of_detail) hy

theorem looking_of_resolveName {path : Text} {r : Except Fault Resolved}
    (h : (resolveName path).run.Plays xs r) : Looking xs := by
  unfold resolveName at h
  split at h
  · rw [(plays_pure_run_iff.mp h).1]
    exact .nil
  · rcases plays_bind_run_iff.mp h with ⟨e, hfault, -⟩ | ⟨found, ys, zs, rfl, hy, hz⟩
    · rw [plays_ask_iff.mp hfault]
      exact .cons rfl .nil
    · have hys : Looking ys := by
        rw [plays_ask_iff.mp hy]
        exact .cons rfl .nil
      refine hys.append ?_
      split at hz
      · rw [(plays_pure_run_iff.mp hz).1]
        exact .nil
      · rcases plays_bind_run_iff.mp hz with ⟨e, hfault, -⟩ | ⟨names, ys, ws, rfl, hy, hw⟩
        · rw [plays_ask_iff.mp hfault]
          exact .cons rfl .nil
        · rw [plays_ask_iff.mp hy]
          refine .cons rfl ?_
          split at hw <;>
          · rw [(plays_pure_run_iff.mp hw).1]
            exact .nil

theorem looking_of_resolveTarget {hint : Text} {r : Except Fault Text}
    (h : (resolveTarget settings hint).run.Plays xs r) : Looking xs := by
  simp only [resolveTarget] at h
  split at h
  · rw [(plays_pure_run_iff.mp h).1]
    exact .nil
  · split at h
    · rw [(plays_pure_run_iff.mp h).1]
      exact .nil
    · rcases plays_bind_run_iff.mp h with ⟨e, hfault, -⟩ | ⟨resolved, ys, zs, rfl, hy, hz⟩
      · exact looking_of_resolveName hfault
      · refine (looking_of_resolveName hy).append ?_
        rcases plays_bind_run_iff.mp hz with ⟨e, hfault, -⟩ | ⟨u, ys, ws, rfl, hy, hw⟩
        · obtain ⟨u, -, hok⟩ := plays_lift_run_iff.mp hfault
          cases hok
        · obtain ⟨u, hy, -⟩ := plays_lift_run_iff.mp hy
          rw [(plays_pure_run_iff.mp hw).1, List.append_nil]
          exact Telling.looking (within_of_each (fun _ _ _ => telling_of_tell) hy)

theorem quiet_of_resolveTarget {hint : Text} {r : Except Fault Text}
    (h : (resolveTarget settings hint).run.Plays xs r) : Quiet xs :=
  (looking_of_resolveTarget h).quiet

/-! ### Questions, backups and writes -/

theorem confirm_of_agrees {question : Text × List Text} {r : Except Fault Bool}
    (h : (agrees question).run.Plays xs r) :
    ∃ reply, xs = [⟨.confirm question.1 question.2, reply⟩] ∧
      r = reply.map fun answer => answer = question.2.head? && answer.isSome := by
  rcases plays_bind_run_iff.mp h with ⟨e, hfault, rfl⟩ | ⟨answer, ys, zs, rfl, hy, hz⟩
  · exact ⟨.error e, plays_ask_iff.mp hfault, rfl⟩
  · obtain ⟨rfl, rfl⟩ := plays_pure_run_iff.mp hz
    obtain rfl := plays_ask_iff.mp hy
    exact ⟨.ok answer, List.append_nil _, rfl⟩

def agreesIf (needed : Bool) (question : Text × List Text) : Attempt Bool :=
  if needed then agrees question else pure true

theorem quiet_of_agreesIf {needed : Bool} {question : Text × List Text} {r : Except Fault Bool}
    (h : (agreesIf needed question).run.Plays xs r) : Quiet xs := by
  unfold agreesIf at h
  split at h
  · obtain ⟨reply, rfl, -⟩ := confirm_of_agrees h
    exact .cons rfl .nil
  · rw [(plays_pure_run_iff.mp h).1]
    exact .nil

theorem agreement_of_agreesIf {needed : Bool} {question : Text × List Text}
    (h : (agreesIf needed question).run.Plays xs (.ok true)) : Agreement needed question xs := by
  cases needed with
  | false =>
    rw [(plays_pure_run_iff.mp h).1]
    exact .unasked rfl
  | true =>
    obtain ⟨reply, rfl, hagreed⟩ := confirm_of_agrees h
    cases reply with
    | error e => cases hagreed
    | ok answer =>
      simp only [Except.map, Except.ok.injEq, Bool.true_eq, Bool.and_eq_true, decide_eq_true_eq,
        Option.isSome_iff_exists] at hagreed
      obtain ⟨hfirst, only, rfl⟩ := hagreed
      exact .agreed only rfl hfirst.symm

theorem heeds_of_agreesIf {needed : Bool} {question : Text × List Text}
    {front last : List (Exchange Reply)} {r : Except Fault Bool} {result : BlockResult}
    (h : (agreesIf needed question).run.Plays xs r)
    (hfront : Leading settings target front question) (hlast : Telling last)
    (hresult : r = .ok true ∨ result.status = .skipped ∨ ∃ e, r = .error e) :
    Heeds settings target (front ++ (xs ++ last)) result := by
  cases needed with
  | false =>
    rw [(plays_pure_run_iff.mp h).1]
    exact .unasked (hfront.unasked.append hlast.looking.unasked)
  | true =>
    obtain ⟨reply, rfl, rfl⟩ := confirm_of_agrees h
    refine .asked reply hfront hlast.looking.unasked ?_
    rintro answer rfl hother
    rcases hresult with hagreed | hskipped | ⟨e, hfault⟩
    · simp [Except.map, hother] at hagreed
    · exact ⟨hskipped, hlast⟩
    · cases hfault

theorem of_declined {r : Except Fault BlockResult} (h : (declined target).run.Plays xs r) :
    Telling xs ∧ ∃ result, r = .ok result ∧ result.path = target ∧ result.status = .skipped := by
  rcases plays_bind_run_iff.mp h with ⟨e, hfault, rfl⟩ | ⟨u, ys, zs, rfl, hy, hz⟩
  · obtain ⟨u, -, hok⟩ := plays_lift_run_iff.mp hfault
    cases hok
  · obtain ⟨u, hy, -⟩ := plays_lift_run_iff.mp hy
    obtain ⟨rfl, rfl⟩ := plays_pure_run_iff.mp hz
    exact ⟨(telling_of_tell hy).append .nil, _, rfl, rfl, rfl⟩

theorem recording_of_recordChange {path ref how : Text} {u : Unit}
    (hrecords : company.records = true)
    (h : (recordChange target path ref how).Plays xs u) :
    Recording company how (some (path, ref)) xs := by
  obtain ⟨now, ys, zs, rfl, hclock, h⟩ := plays_bind_iff.mp h
  obtain ⟨reply, ws, last, rfl, hrecord, hlast⟩ := plays_bind_iff.mp h
  obtain rfl := plays_ask_iff.mp hclock
  obtain rfl := plays_ask_iff.mp hrecord
  refine .asked now reply hrecords ?_
  split at hlast
  · rw [(plays_pure_iff.mp hlast).1]
    exact .nil
  · exact telling_of_log hlast
  · exact telling_of_log hlast

/-- The two ways in which a backup is asked for are one attempt, which fails where one of its calls
does. -/
theorem attempt_of_askBackup {existing : Text} {r : Except Fault (Text × Option Text)}
    (h : (askBackup company target existing).run.Plays xs r) :
    BackupAttempt company target existing xs (kept? r) := by
  unfold askBackup at h
  cases hresolves : company.resolvesPaths with
  | true =>
    rw [if_pos hresolves] at h
    rcases plays_bind_run_iff.mp h with ⟨e, hfault, rfl⟩ | ⟨path, ys, zs, rfl, hy, hz⟩
    · rw [plays_ask_iff.mp hfault]
      exact .unplaced e hresolves
    · obtain rfl := plays_ask_iff.mp hy
      rcases plays_bind_run_iff.mp hz with ⟨e, hfault, rfl⟩ | ⟨ref, ys, ws, rfl, hy, hw⟩
      · rw [plays_ask_iff.mp hfault]
        exact .placed path (.error e) hresolves
      · obtain rfl := plays_ask_iff.mp hy
        obtain ⟨rfl, rfl⟩ := plays_pure_run_iff.mp hw
        exact .placed path (.ok ref) hresolves
  | false =>
    rw [if_neg (by simp [hresolves])] at h
    rcases plays_bind_run_iff.mp h with ⟨e, hfault, -⟩ | ⟨path, ys, zs, rfl, hy, hz⟩
    · cases (plays_pure_run_iff.mp hfault).2
    · obtain ⟨rfl, hpath⟩ := plays_pure_run_iff.mp hy
      cases hpath
      rcases plays_bind_run_iff.mp hz with ⟨e, hfault, rfl⟩ | ⟨ref, ys, ws, rfl, hy, hw⟩
      · rw [plays_ask_iff.mp hfault]
        exact .direct (.error e) hresolves
      · obtain rfl := plays_ask_iff.mp hy
        obtain ⟨rfl, rfl⟩ := plays_pure_run_iff.mp hw
        exact .direct (.ok ref) hresolves

theorem keeping_of_backUp {existing how : Text} {u : Unit}
    (h : (backUp settings company target existing how).Plays xs u) :
    Keeping settings company target existing how xs := by
  simp only [backUp] at h
  split at h
  next hkeeps =>
    obtain ⟨r, attempt, last, rfl, hattempt, hlast⟩ := plays_bind_iff.mp h
    have hattempt := attempt_of_askBackup hattempt
    split at hlast
    next e =>
      refine .attempted hkeeps hattempt (.lost ?_)
      exact within_of_bind (fun _ _ => telling_of_log) (fun _ _ => telling_of_tell) hlast
    next path => exact .attempted hkeeps hattempt (.lost (telling_of_tell hlast))
    next path ref =>
      simp only [kept?] at hattempt
      split at hlast
      next hempty =>
        rw [if_pos hempty] at hattempt
        exact .attempted hkeeps hattempt (.lost (telling_of_tell hlast))
      next hempty =>
        rw [if_neg hempty] at hattempt
        refine .attempted hkeeps hattempt ?_
        split at hlast
        next hrecords => exact recording_of_recordChange hrecords hlast
        next hrecords =>
          rw [(plays_pure_iff.mp hlast).1]
          exact .unasked (by simpa using hrecords)
  next hkeeps =>
    rw [(plays_pure_iff.mp h).1]
    exact .unasked (by simpa using hkeeps)

/-! ### Visits -/

/-- How a visit ends: with a result, or with a fault that is told and becomes one. -/
inductive Settles (target : Text) :
    Except Fault BlockResult → List (Exchange Reply) → BlockResult → Prop
  | done (result : BlockResult) : Settles target (.ok result) [] result
  | failed (e : Fault) {last : List (Exchange Reply)} {result : BlockResult} (hlast : Telling last)
      (hpath : result.path = target) (hstatus : result.status = .failed) :
      Settles target (.error e) last result

theorem of_failure {fault : Fault} {result : BlockResult}
    (h : (failure target fault).Plays xs result) :
    Telling xs ∧ result.path = target ∧ result.status = .failed := by
  have htell : ∀ {zs}, ((do
      tell (glue ["  ✘ Failed to apply ", target, ": ", fault.message])
      return ⟨target, .failed, fault.message⟩ : Session BlockResult)).Plays zs result →
      Telling zs ∧ result.path = target ∧ result.status = .failed := by
    intro zs hz
    obtain ⟨u, ys, ws, rfl, hy, hw⟩ := plays_bind_iff.mp hz
    obtain ⟨rfl, rfl⟩ := plays_pure_iff.mp hw
    exact ⟨(telling_of_tell hy).append .nil, rfl, rfl⟩
  simp only [failure] at h
  split at h
  · obtain ⟨u, ys, zs, rfl, hy, hz⟩ := plays_bind_iff.mp h
    exact ⟨(telling_of_log hy).append (htell hz).1, (htell hz).2⟩
  · exact htell h

theorem Visit.of_fault {e : Fault} {last : List (Exchange Reply)} {result : BlockResult}
    (hquiet : Quiet xs) (h : Settles target (.error e) last result)
    (hheeds : Telling last → Heeds settings target (xs ++ last) result) :
    Visit settings company block target (xs ++ last) result := by
  obtain - | ⟨e, hlast, hpath, hstatus⟩ := h
  exact .idle hpath (hquiet.append hlast.quiet) (by simp [hstatus, Status.isSuccess])
    (hheeds hlast)

theorem Visit.of_early_fault {e : Fault} {last : List (Exchange Reply)} {result : BlockResult}
    (hquiet : Quiet xs) (hunasked : Unasked xs) (h : Settles target (.error e) last result) :
    Visit settings company block target (xs ++ last) result :=
  .of_fault hquiet h fun hlast => .unasked (hunasked.append hlast.looking.unasked)

theorem plays_run_of_ite {α β : Type} {c : Prop} [Decidable c] {x y : Attempt α}
    {f : α → Attempt β} {r : Except Fault β}
    (h : (if c then x >>= f else y >>= f : Attempt β).run.Plays xs r) :
    ((if c then x else y) >>= f).run.Plays xs r := by
  split at h
  next hc => rwa [if_pos hc]
  next hc => rwa [if_neg hc]

/-- The end of a visit that writes: the write, and what is told of it. The status of the result goes by
the reply to the write. -/
theorem of_save {content message : Text} {written result : BlockResult} {success : Status}
    {r : Except Fault BlockResult} {last : List (Exchange Reply)}
    (h : (do save target content; liftM (tell message); pure written :
      Attempt BlockResult).run.Plays xs r) (hend : Settles target r last result)
    (hpath : written.path = target) (hstatus : written.status = success) :
    ∃ (reply : Except Fault Unit) (behind : List (Exchange Reply)),
      xs ++ last = ⟨.writeText target content, reply⟩ :: behind ∧ Telling behind ∧
        result.path = target ∧ result.status = savedAs success reply := by
  rcases plays_bind_run_iff.mp h with ⟨e, hfault, rfl⟩ | ⟨u, ys, zs, rfl, hsave, hrest⟩
  · obtain ⟨reply, hwrite, hreply⟩ := plays_adapt_run_iff.mp hfault
    obtain rfl := plays_ask_iff.mp hwrite
    obtain - | ⟨e, hlast, hpath', hstatus'⟩ := hend
    cases reply with
    | ok => cases hreply
    | error fault => exact ⟨.error fault, last, rfl, hlast, hpath', hstatus'⟩
  · obtain ⟨reply, hwrite, hreply⟩ := plays_adapt_run_iff.mp hsave
    obtain rfl := plays_ask_iff.mp hwrite
    rcases plays_bind_run_iff.mp hrest with ⟨e, hfault, -⟩ | ⟨u, told, ws, rfl, htold, hpure⟩
    · obtain ⟨u, -, hok⟩ := plays_lift_run_iff.mp hfault
      cases hok
    obtain ⟨u, htold, -⟩ := plays_lift_run_iff.mp htold
    obtain ⟨rfl, rfl⟩ := plays_pure_run_iff.mp hpure
    cases hend
    cases reply with
    | error fault => cases hreply
    | ok => exact ⟨.ok (), told, by simp, telling_of_tell htold, hpath, hstatus⟩

/-- The middle of a visit: where the user declines it or the run is a rehearsal it ends quietly, else it
goes on with what changes the file. -/
theorem Visit.of_asked {needed : Bool} {question : Text × List Text}
    {front last : List (Exchange Reply)}
    {rehearsed result : BlockResult} {change : Attempt BlockResult} {r : Except Fault BlockResult}
    (h : (do
      let agreed ← agreesIf needed question
      if !agreed then return ← declined target
      if settings.dryRun then return rehearsed
      change : Attempt BlockResult).run.Plays xs r)
    (hend : Settles target r last result) (hfront : Leading settings target front question)
    (hpath : rehearsed.path = target) :
    Visit settings company block target (front ++ (xs ++ last)) result ∨
      ∃ asked ys, xs = asked ++ ys ∧ settings.dryRun = false ∧ Agreement needed question asked ∧
        change.run.Plays ys r := by
  rcases plays_bind_run_iff.mp h with ⟨e, hfault, rfl⟩ | ⟨agreed, asked, zs, rfl, hasked, hagreed⟩
  · left
    rw [← List.append_assoc]
    refine .of_fault (hfront.quiet.append (quiet_of_agreesIf hfault)) hend fun hlast => ?_
    rw [List.append_assoc]
    exact heeds_of_agreesIf hfault hfront hlast (.inr (.inr ⟨e, rfl⟩))
  have hquiet := hfront.quiet.append (quiet_of_agreesIf hasked)
  cases agreed with
  | false =>
    left
    obtain ⟨htells, declined, rfl, hpath, hstatus⟩ := of_declined hagreed
    cases hend
    rw [List.append_nil]
    refine .idle hpath ?_ (by simp [hstatus, Status.isSuccess])
      (heeds_of_agreesIf hasked hfront htells (.inr (.inl hstatus)))
    simpa using hquiet.append htells.quiet
  | true =>
    simp only [Bool.not_true, Bool.false_eq_true, if_false] at hagreed
    split at hagreed
    next hdry =>
      left
      obtain ⟨rfl, rfl⟩ := plays_pure_run_iff.mp hagreed
      cases hend
      rw [List.append_nil]
      exact .idle hpath (by simpa using hquiet) (fun _ => hdry)
        (heeds_of_agreesIf hasked hfront .nil (.inl rfl))
    next hdry =>
      exact .inr ⟨asked, zs, rfl, by simpa using hdry, agreement_of_agreesIf hasked, hagreed⟩

theorem Visit.of_updateFile {r : Except Fault BlockResult} {last : List (Exchange Reply)}
    {result : BlockResult} (h : (updateFile settings company block target).run.Plays xs r)
    (hend : Settles target r last result) :
    Visit settings company block target (⟨.fileExists target, .ok true⟩ :: (xs ++ last)) result := by
  simp only [updateFile] at h
  rcases plays_bind_run_iff.mp h with ⟨e, hfault, rfl⟩ | ⟨existing, ys, zs, rfl, hread, hrest⟩
  · obtain rfl := plays_ask_iff.mp hfault
    have hquiet : Quiet [⟨.fileExists target, .ok true⟩, ⟨.readText target, .error e⟩] :=
      .cons rfl (.cons rfl .nil)
    exact .of_early_fault hquiet (.cons rfl (.cons rfl .nil)) hend
  obtain rfl := plays_ask_iff.mp hread
  rcases plays_bind_run_iff.mp hrest with ⟨e, hfault, -⟩ | ⟨_, told, zs, rfl, htold, hmake⟩
  · obtain ⟨u, -, hok⟩ := plays_lift_run_iff.mp hfault
    cases hok
  obtain ⟨u, htold, -⟩ := plays_lift_run_iff.mp htold
  have htold := noting_of_tellRevision htold
  split at hmake
  next revision hrevise =>
    rw [pure_bind_eq] at hmake
    have hfront : Leading settings target _ _ := .change existing revision.content htold
    rcases Visit.of_asked (plays_run_of_ite hmake) hend hfront rfl with
      hvisit | ⟨asked, ys, rfl, hdry, hagreement, hchange⟩
    · simpa using hvisit
    rcases plays_bind_run_iff.mp hchange with ⟨e, hfault, -⟩ | ⟨_, keeping, ws, rfl, hkeep, hsave⟩
    · obtain ⟨u, -, hok⟩ := plays_lift_run_iff.mp hfault
      cases hok
    obtain ⟨u, hkeep, -⟩ := plays_lift_run_iff.mp hkeep
    obtain ⟨reply, behind, hws, hbehind, hpath, hstatus⟩ := of_save hsave hend rfl rfl
    have hvisit : Visit settings company block target _ result :=
      .updates reply hpath hdry hrevise htold hagreement (keeping_of_backUp hkeep) hbehind hstatus
    rw [← hws] at hvisit
    simpa using hvisit
  next e _ =>
    rcases plays_bind_run_iff.mp hmake with ⟨e, hfault, rfl⟩ | ⟨a, ys, zs, rfl, hthrow, -⟩
    · obtain rfl := (plays_throw_run_iff.mp hfault).1
      have hfront : Leading settings target _ _ := .change existing [] htold
      simpa using Visit.of_early_fault hfront.quiet hfront.unasked hend
    · cases (plays_throw_run_iff.mp hthrow).2

theorem folder_of_makeParent {r : Except Fault Unit} (h : (makeParent target).run.Plays xs r) :
    (Quiet xs ∧ Unasked xs) ∧
      (r = .ok () → xs = [] ∨ xs = [⟨.makeFolder (Path.dirname target), .ok ()⟩]) := by
  simp only [makeParent] at h
  split at h
  · obtain ⟨rfl, -⟩ := plays_pure_run_iff.mp h
    exact ⟨⟨.nil, .nil⟩, fun _ => Or.inl rfl⟩
  · obtain ⟨reply, hmake, rfl⟩ := plays_adapt_run_iff.mp h
    obtain rfl := plays_ask_iff.mp hmake
    refine ⟨⟨.cons rfl .nil, .cons rfl .nil⟩, ?_⟩
    intro hok
    cases reply with
    | error e => cases hok
    | ok => exact Or.inr rfl

theorem Visit.of_createFile {r : Except Fault BlockResult} {last : List (Exchange Reply)}
    {result : BlockResult} (h : (createFile settings company block target).run.Plays xs r)
    (hend : Settles target r last result) :
    Visit settings company block target
      (⟨.fileExists target, .ok false⟩ :: (xs ++ last)) result := by
  simp only [createFile] at h
  have hfront : Leading settings target _ _ := .creation
  rcases Visit.of_asked (plays_run_of_ite h) hend hfront rfl with
    hvisit | ⟨asked, ys, rfl, hdry, hagreement, hchange⟩
  · exact hvisit
  rcases plays_bind_run_iff.mp hchange with ⟨e, hfault, rfl⟩ | ⟨_, folder, ws, rfl, hmake, hsave⟩
  · obtain ⟨hquiet, hunasked⟩ := (folder_of_makeParent hfault).1
    have hvisit : Visit settings company block target
        (([⟨.fileExists target, .ok false⟩] ++ (asked ++ ys)) ++ last) result := by
      refine .of_fault (hfront.quiet.append (hagreement.quiet.append hquiet)) hend fun hlast => ?_
      rw [List.append_assoc, List.append_assoc]
      exact .of_agreement result hfront hagreement (hunasked.append hlast.looking.unasked)
    simpa using hvisit
  have hfolder := (folder_of_makeParent hmake).2 rfl
  obtain ⟨reply, behind, hws, hbehind, hpath, hstatus⟩ := of_save hsave hend rfl rfl
  have hvisit : Visit settings company block target _ result :=
    .creates reply hpath hdry hagreement hfolder hbehind hstatus
  rw [← hws] at hvisit
  simpa using hvisit

theorem Visit.of_applyTo {r : Except Fault BlockResult} {last : List (Exchange Reply)}
    {result : BlockResult} (h : (applyTo settings company block target).run.Plays xs r)
    (hend : Settles target r last result) :
    Visit settings company block target (xs ++ last) result := by
  rcases plays_bind_run_iff.mp h with ⟨e, hfault, rfl⟩ | ⟨found, ys, zs, rfl, hfound, hrest⟩
  · obtain rfl := plays_ask_iff.mp hfault
    exact Visit.of_early_fault (.cons rfl .nil) (.cons rfl .nil) hend
  · obtain rfl := plays_ask_iff.mp hfound
    cases found with
    | true => exact Visit.of_updateFile hrest hend
    | false => exact Visit.of_createFile hrest hend

theorem course_of_applyBlock {result : BlockResult}
    (h : (applyBlock settings company block).Plays xs result) :
    Course settings company block xs result := by
  obtain ⟨found, seek, zs, rfl, hseek, hfound⟩ := plays_bind_iff.mp h
  cases found with
  | error fault =>
    obtain ⟨htells, hpath, hstatus⟩ := of_failure hfound
    exact .unresolved hseek htells hpath hstatus
  | ok target =>
    obtain ⟨r, ys, last, rfl, hvisit, hlast⟩ := plays_bind_iff.mp hfound
    refine .resolved hseek (Visit.of_applyTo hvisit ?_)
    cases r with
    | ok made =>
      obtain ⟨rfl, rfl⟩ := plays_pure_iff.mp hlast
      exact .done result
    | error fault =>
      obtain ⟨htells, hpath, hstatus⟩ := of_failure hlast
      exact .failed fault htells hpath hstatus

/-- The courses of blocks, one after another. -/
inductive Courses (settings : Settings) (company : Company) :
    List Block → List (Exchange Reply) → List BlockResult → Prop
  | nil : Courses settings company [] [] []
  | cons {block : Block} {blocks : List Block} {xs ys : List (Exchange Reply)}
      {result : BlockResult} {results : List BlockResult}
      (hcourse : Course settings company block xs result)
      (hrest : Courses settings company blocks ys results) :
      Courses settings company (block :: blocks) (xs ++ ys) (result :: results)

theorem courses_of_applyEach {blocks : List Block} {results : List BlockResult}
    (h : (applyEach settings company blocks).Plays xs results) :
    Courses settings company blocks xs results := by
  induction blocks generalizing xs results with
  | nil =>
    obtain ⟨rfl, rfl⟩ := plays_pure_iff.mp h
    exact .nil
  | cons block blocks ih =>
    obtain ⟨result, ys, zs, rfl, hblock, hrest⟩ := plays_bind_iff.mp h
    obtain ⟨results, us, vs, rfl, hblocks, hpure⟩ := plays_bind_iff.mp hrest
    obtain ⟨rfl, rfl⟩ := plays_pure_iff.mp hpure
    rw [List.append_nil]
    exact .cons (course_of_applyBlock hblock) (ih hblocks)

/-- What happens behind the last block: files are viewed, and that is told. -/
theorem showing_of_openWritten {written opened : List Text}
    (h : (openWritten settings company written).Plays xs opened) : Showing xs := by
  have heach : ∀ (paths : List Text) {ys opened}, (openEach paths).Plays ys opened → Showing ys := by
    intro paths
    induction paths with
    | nil =>
      intro ys opened hy
      rw [(plays_pure_iff.mp hy).1]
      exact .nil
    | cons path paths ih =>
      intro ys opened hy
      obtain ⟨r, ys, zs, rfl, hview, hrest⟩ := plays_bind_iff.mp hy
      obtain rfl := plays_ask_iff.mp hview
      refine .cons rfl ?_
      cases r with
      | ok =>
        obtain ⟨more, ys, ws, rfl, hmore, hpure⟩ := plays_bind_iff.mp hrest
        rw [(plays_pure_iff.mp hpure).1, List.append_nil]
        exact ih hmore
      | error e =>
        obtain ⟨u, ys, ws, rfl, hlog, hmore⟩ := plays_bind_iff.mp hrest
        exact (telling_of_log hlog).showing.append (ih hmore)
  simp only [openWritten] at h
  split at h
  · rw [(plays_pure_iff.mp h).1]
    exact .nil
  · obtain ⟨paths, ys, zs, rfl, hopen, hrest⟩ := plays_bind_iff.mp h
    refine (heach _ hopen).append ?_
    split at hrest
    · obtain ⟨u, ys, ws, rfl, htell, hpure⟩ := plays_bind_iff.mp hrest
      rw [(plays_pure_iff.mp hpure).1, List.append_nil]
      exact (telling_of_tell htell).showing
    · rw [(plays_pure_iff.mp hrest).1]
      exact .nil

theorem showing_of_applyBlocks {blocks : List Block} {summary : Summary}
    (h : (applyBlocks settings company blocks).Plays xs summary) :
    ∃ ys viewing, xs = ys ++ viewing ∧ Courses settings company blocks ys summary.results ∧
      Showing viewing := by
  obtain ⟨results, ys, zs, rfl, heach, hrest⟩ := plays_bind_iff.mp h
  obtain ⟨opened, viewing, ws, rfl, hview, hpure⟩ := plays_bind_iff.mp hrest
  obtain ⟨rfl, rfl⟩ := plays_pure_iff.mp hpure
  rw [List.append_nil]
  exact ⟨ys, viewing, rfl, courses_of_applyEach heach, showing_of_openWritten hview⟩

theorem courses_of_applyBlocks {blocks : List Block} {summary : Summary}
    (h : (applyBlocks settings company blocks).Plays xs summary) :
    ∃ ys viewing, xs = ys ++ viewing ∧ Courses settings company blocks ys summary.results ∧
      Quiet viewing := by
  obtain ⟨ys, viewing, hxs, hcourses, hviewing⟩ := showing_of_applyBlocks h
  exact ⟨ys, viewing, hxs, hcourses, hviewing.quiet⟩

theorem results_of_nothingToApply {reason : Text} {summary : Summary}
    (h : (nothingToApply settings reason).Plays xs summary) : summary.results = [] := by
  obtain ⟨u, ys, zs, rfl, -, hpure⟩ := plays_bind_iff.mp h
  rw [(plays_pure_iff.mp hpure).2]

theorem exists_course_of_applyText {text : Text} {summary : Summary} {result : BlockResult}
    (h : (applyText settings company text).Plays xs summary)
    (hresults : summary.results = [result]) :
    ∃ block logged ys viewing, xs = logged ++ (ys ++ viewing) ∧ Noting logged ∧
      Course settings company block ys result ∧ Showing viewing := by
  have hnothing : ∀ {reason zs}, ¬ (nothingToApply settings reason).Plays zs summary := by
    intro reason zs hz
    rw [results_of_nothingToApply hz] at hresults
    cases hresults
  unfold applyText at h
  split at h
  · exact absurd h hnothing
  obtain ⟨u, logged, zs, rfl, hlogged, hrest⟩ := plays_bind_iff.mp h
  generalize CodeGraft.blocks text = found at hrest
  split at hrest
  · exact absurd hrest hnothing
  obtain ⟨ys, viewing, rfl, hcourses, hviewing⟩ := showing_of_applyBlocks hrest
  rw [hresults] at hcourses
  cases hcourses with
  | @cons block _ us vs _ _ hcourse hnone =>
    cases hnone
    rw [List.append_nil]
    exact ⟨block, logged, us, viewing, rfl, noting_of_logAll hlogged, hcourse, hviewing⟩

end CodeGraft
