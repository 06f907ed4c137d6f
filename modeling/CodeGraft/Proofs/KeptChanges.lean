import CodeGraft.Proofs.FalteringSessions

/-!
# The backups behind the history

Each entry of the history stands for a change of a file, and the backup that it refers to stands and
holds what was read of the file just before. This goes through a batch block by block: a block makes
at most one new pair of an entry and a backup, and passes by all others.
-/

namespace CodeGraft

open Text Dialogue Disk

namespace Request

def recordedRef? : Request → Option Json.Value
  | record e => some e.backupRef
  | _ => none

theorem recordedRef?_of_passes {q : Request} {w : LocalWorkspace} {own : Place → Prop}
    {current : Place} (h : q.Passes w own current) : q.recordedRef? = none := by
  cases q <;> first | rfl | cases h

end Request

theorem Quiet.recordedRef?_eq {xs : List (Exchange Reply)} (h : Quiet xs) :
    ∀ x ∈ xs, x.1.recordedRef? = none := by
  intro x hx
  have hquiet := h x hx
  cases hq : x.1 <;> first | rfl | (rw [hq] at hquiet; cases hquiet)

theorem exists_of_textOf {bytes : Bytes} {text : Text} (h : Machine.textOf bytes = .ok text) :
    ∃ old, Utf8.decode bytes = .ok old ∧ text = unifyNewlines old := by
  unfold Machine.textOf at h
  split at h
  next old hold => exact ⟨old, hold, (Except.ok.inj h).symm⟩
  next => cases h

namespace LocalWorkspace

section

variable {σ : Type} (w : LocalWorkspace) (host : Host Reply σ) (view : σ → Stores × World) (s : σ)

/-- An entry stands for a change among the exchanges of a session. It is recorded, no later entry
refers to the same backup, and next, behind what is told, the file is written; until then it holds
some bytes. -/
inductive StandsFor : List (Exchange Reply) → HistoryEntry → Bytes → Prop
  | change {front told back : List (Exchange Reply)} {path ref how target content : Text}
      {now : Instant} {recorded : Except Fault Bool} {written : Except Fault Unit} {before : σ}
      {bytes : Bytes} (htold : Telling told)
      (hbefore : Answers host s
        (front ++ ⟨.record (changeEntry path ref how now), recorded⟩ :: told) before)
      (hpath : w.absolutePath target = .ok path) (hread : (view before).2.disk.read path = .ok bytes)
      (hlast : ∀ x ∈ back, x.1.recordedRef? ≠ some (.text ref)) :
      StandsFor (front ++ ⟨.record (changeEntry path ref how now), recorded⟩ ::
        (told ++ ⟨.writeText target content, written⟩ :: back)) (changeEntry path ref how now) bytes

/-- What is kept for an entry: what can be read of the bytes that the file held. -/
def IsKeptFor (xs : List (Exchange Reply)) (e : HistoryEntry) (content : Bytes) : Prop :=
  ∃ bytes text, w.StandsFor host view s xs e bytes ∧ Utf8.decode bytes = .ok text ∧
    content = Utf8.encode (unifyNewlines text)

end

section

variable {σ : Type} {w : LocalWorkspace} {host : Host Reply σ} {view : σ → Stores × World}
  {s u t : σ} {past xs ys : List (Exchange Reply)} {own : Place → Prop} {cap : Nat}
  {entries : List HistoryEntry} {names : List Text} {settings : Settings} {company : Company}

theorem StandsFor.append {e : HistoryEntry} {bytes : Bytes}
    (h : w.StandsFor host view s xs e bytes)
    (hys : ∀ y ∈ ys, y.1.recordedRef? ≠ some e.backupRef) :
    w.StandsFor host view s (xs ++ ys) e bytes := by
  cases h with
  | change htold hbefore hpath hread hlast =>
    rw [List.append_assoc, List.cons_append, List.append_assoc, List.cons_append]
    exact .change htold hbefore hpath hread (List.forall_mem_append.mpr ⟨hlast, hys⟩)

theorem IsKeptFor.append {e : HistoryEntry} {content : Bytes}
    (h : w.IsKeptFor host view s xs e content)
    (hys : ∀ y ∈ ys, y.1.recordedRef? ≠ some e.backupRef) :
    w.IsKeptFor host view s (xs ++ ys) e content := by
  obtain ⟨bytes, text, hstands, hdecode, hcontent⟩ := h
  exact ⟨bytes, text, hstands.append hys, hdecode, hcontent⟩

theorem IsKeptFor.append_of_passes {e : HistoryEntry} {content : Bytes} {current : Place}
    (h : w.IsKeptFor host view s xs e content) (hys : ∀ y ∈ ys, y.1.Passes w own current) :
    w.IsKeptFor host view s (xs ++ ys) e content :=
  h.append fun y hy => by simp [Request.recordedRef?_of_passes (hys y hy)]

/-- The entries and backups of a session so far are paired, and each backup holds what is kept for
its entry. -/
def InStep (w : LocalWorkspace) (host : Host Reply σ) (view : σ → Stores × World)
    (own : Place → Prop) (cap : Nat) (s : σ) (past : List (Exchange Reply)) (u : σ) : Prop :=
  ∃ entries names, (view u).1.Paired (view u).2.disk own cap (w.IsKeptFor host view s past) entries
    names

theorem InStep.of_passes (h : w.InStep host view own cap s past u) (hhost : w.Hosts host view)
    (hxs : Answers host u xs t) (hpasses : ∀ x ∈ xs, x.1.Passes w own (view u).2.disk.current) :
    w.InStep host view own cap s (past ++ xs) t := by
  obtain ⟨entries, names, hpaired⟩ := h
  refine ⟨entries, names, (hhost.paired hxs hpasses hpaired).imp ?_⟩
  exact fun e _ content hkept => hkept.append_of_passes hpasses

/-- A file that a block is to update, and what is read of it. It is none of the stores'. -/
structure Subject (w : LocalWorkspace) (own : Place → Prop) (d : Disk) (target path : Text)
    (bytes : Bytes) (text : Text) : Prop where
  path_eq : w.absolutePath target = .ok path
  read : d.read path = .ok bytes
  text_eq : Machine.textOf bytes = .ok text
  free : ¬ own (destination d.current path)

theorem Subject.passes {d : Disk} {target path text : Text} {bytes : Bytes}
    (h : w.Subject own d target path bytes text) (content : Text) :
    (Request.writeText target content).Passes w own d.current := by
  intro found hfound
  obtain rfl := Except.ok.inj (h.path_eq.symm.trans hfound)
  exact h.free

theorem Subject.passes_behind {d : Disk} {target path text : Text} {bytes : Bytes}
    {written : Except Fault Unit} {told last : List (Exchange Reply)}
    (h : w.Subject own d target path bytes text) (content : Text) (htold : Telling told)
    (hlast : Telling last) : ∀ x ∈ told ++ ⟨.writeText target content, written⟩ :: last,
      x.1.Passes w own d.current :=
  List.forall_mem_append.mpr ⟨htold.quiet.passes w own _,
    List.forall_mem_cons.mpr ⟨h.passes content, hlast.quiet.passes w own _⟩⟩

/-- A backup that was taken is recorded, and then the file is written. The new entry stands for that
change, and what the others refer to has another name. -/
theorem inStep_of_taken {b v : σ} {store : BackupStore} {name path existing how target content : Text}
    {bytes : Bytes} {now : Instant} {recorded : Except Fault Bool} {written : Except Fault Unit}
    {told last : List (Exchange Reply)} (hhost : w.Hosts host view) (hpast : Answers host s past b)
    (hpaired : (view u).1.Paired (view u).2.disk own cap (w.IsKeptFor host view s past) entries names)
    (htaken : BackupStore.Taken (view u).1.backups store (view u).2.disk (view b).2.disk cap names
      name existing)
    (hstores : (view b).1 = { (view u).1 with backups := store })
    (hnodup : ((view b).2.disk.nodes.map (·.1)).Nodup)
    (hsubject : w.Subject own (view u).2.disk target path bytes existing) (htold : Telling told)
    (hlast : Telling last)
    (hrecord : Answers host b (⟨.clock, now⟩ :: ⟨.record (changeEntry path
      (Path.join (view u).1.backups.folder name) how now), recorded⟩ :: told) v)
    (hrest : Answers host v (⟨.writeText target content, written⟩ :: last) t) :
    w.InStep host view own cap s (past ++ ⟨.clock, now⟩ :: ⟨.record (changeEntry path
      (Path.join (view u).1.backups.folder name) how now), recorded⟩ ::
        (told ++ ⟨.writeText target content, written⟩ :: last)) t := by
  let entry := changeEntry path (Path.join (view u).1.backups.folder name) how now
  let full := past ++ ⟨.clock, now⟩ :: ⟨.record entry, recorded⟩ ::
    (told ++ ⟨.writeText target content, written⟩ :: last)
  have hledger : (view b).1.ledger.Keeps (view b).2.disk entries := by
    rw [hstores]
    exact hpaired.ledger.of_evolves htaken.evolves fun hother => hpaired.apart hother.isPlaceIn
  obtain ⟨hvstores, hrecorded, hvnodup⟩ := hhost.of_recorded hrecord htold hledger hnodup
    (Json.Value.isFilled_text (ne_nil_of_read hsubject.read))
    (Json.Value.isFilled_text (htaken.isName.join_ne_nil _))
    (Json.Value.isFilled_text now.extended_ne_nil)
  rw [hstores] at hvstores hrecorded
  have hown := hpaired.evolves_own htaken hrecorded
  have hkept : w.IsKeptFor host view s full entry (Utf8.encode existing) := by
    obtain ⟨old, hdecode, rfl⟩ := exists_of_textOf hsubject.text_eq
    have hbefore := answers_append.mpr ⟨b, hpast, hrecord⟩
    have hheld := hown.read_eq hsubject.read hsubject.free
    rw [List.append_cons] at hbefore
    refine ⟨bytes, old, ?_, hdecode, rfl⟩
    simp only [full]
    rw [List.append_cons]
    exact .change htold hbefore hsubject.path_eq hheld
      fun x hx => by simp [hlast.quiet.recordedRef?_eq x hx]
  have hothers : ∀ e ∈ entries, ∀ held, w.IsKeptFor host view s past e held →
      w.IsKeptFor host view s full e held := by
    intro e he held hheld
    have hnew := (hpaired.ref_ne htaken.isName htaken.fresh he).symm
    refine hheld.append ?_
    simp only [List.forall_mem_cons, List.forall_mem_append]
    refine ⟨by simp [Request.recordedRef?], fun heq => hnew (Option.some.inj heq), ?_,
      by simp [Request.recordedRef?], ?_⟩
    · exact fun x hx => by simp [htold.quiet.recordedRef?_eq x hx]
    · exact fun x hx => by simp [hlast.quiet.recordedRef?_eq x hx]
  have hpairs := (hpaired.imp hothers).of_taken hvnodup htaken rfl hkept rfl hrecorded
  rw [← show (view v).1 = ⟨store, _⟩ from hvstores] at hpairs
  refine ⟨_, _, hhost.paired hrest ?_ hpairs⟩
  rw [hown.current_eq]
  exact List.forall_mem_cons.mpr ⟨hsubject.passes content, hlast.quiet.passes w own _⟩

theorem InStep.of_placed {b v : σ} {target path existing how content : Text} {bytes : Bytes}
    {reply : Except Fault (Option Text)} {written : Except Fault Unit}
    {recording last : List (Exchange Reply)} (h : w.InStep host view own cap s past u)
    (hhost : w.Hosts host view) (hrecords : company.records = true) (hpast : Answers host s past u)
    (hsubject : w.Subject own (view u).2.disk target path bytes existing) (hlast : Telling last)
    (hattempted : Answers host u [⟨.backup path existing, reply⟩] b)
    (hrecording : Recording company how (kept? (reply.map (path, ·))) recording)
    (hrecorded : Answers host b recording v)
    (hrest : Answers host v (⟨.writeText target content, written⟩ :: last) t) :
    w.InStep host view own cap s (past ++ ⟨.backup path existing, reply⟩ ::
      (recording ++ ⟨.writeText target content, written⟩ :: last)) t := by
  obtain ⟨entries, names, hpaired⟩ := h
  have hpast' := answers_append.mpr ⟨u, hpast, hattempted⟩
  obtain ⟨b', hbackup, hb⟩ := hhost.step hattempted
  obtain rfl : b' = b := hb
  have hextended : (view u).1.Paired (view u).2.disk own cap
      (w.IsKeptFor host view s (past ++ [⟨.backup path existing, reply⟩])) entries names :=
    hpaired.imp fun e _ held hheld => hheld.append (by simp [Request.recordedRef?])
  rw [List.append_cons]
  rcases hbackup.backup_cases hextended with
    ⟨hnone, huntaken⟩ | ⟨name, store, rfl, hstores, htaken⟩
  · have hlost : kept? (reply.map (path, ·)) = none := by
      rcases reply with e | ref
      · rfl
      · obtain rfl : ref = none := hnone
        rfl
    rw [hlost] at hrecording
    obtain ⟨htold⟩ := hrecording
    refine InStep.of_passes ⟨entries, names, huntaken⟩ hhost
      (answers_append.mpr ⟨v, hrecorded, hrest⟩) ?_
    rw [hbackup.current_eq]
    exact hsubject.passes_behind content htold hlast
  · have href : kept? (Except.map (path, ·) (.ok (some (Path.join
        (view u).1.backups.folder name)))) =
          some (path, Path.join (view u).1.backups.folder name) := by
      simp [kept?, Except.map, htaken.isName.join_ne_nil]
    rw [href] at hrecording
    cases hrecording with
    | unasked hoff =>
      rw [hrecords] at hoff
      cases hoff
    | asked now recorded _ htold =>
      exact inStep_of_taken hhost hpast' hextended htaken hstores (hbackup.nodup hpaired.nodup)
        hsubject htold hlast hrecorded hrest

/-- The way from the agreement to a change to the end of its block. -/
theorem InStep.of_keeping {v : σ} {target path existing how content : Text} {bytes : Bytes}
    {written : Except Fault Unit} {keeping last : List (Exchange Reply)}
    (h : w.InStep host view own cap s past u) (hhost : w.Hosts host view)
    (hrecords : company.records = true) (hresolves : company.resolvesPaths = true)
    (hpast : Answers host s past u)
    (hsubject : w.Subject own (view u).2.disk target path bytes existing)
    (hkeeping : Keeping settings company target existing how keeping) (hlast : Telling last)
    (hkept : Answers host u keeping v)
    (hrest : Answers host v (⟨.writeText target content, written⟩ :: last) t) :
    w.InStep host view own cap s (past ++ (keeping ++ ⟨.writeText target content, written⟩ :: last))
      t := by
  cases hkeeping with
  | unasked =>
    obtain rfl : u = v := hkept
    exact h.of_passes hhost hrest (hsubject.passes_behind content .nil hlast)
  | attempted _ hattempt hrecording =>
    obtain ⟨b, hattempted, hrecorded⟩ := answers_append.mp hkept
    cases hattempt with
    | direct _ hoff =>
      rw [hresolves] at hoff
      cases hoff
    | unplaced e =>
      obtain ⟨htold⟩ := hrecording
      refine h.of_passes hhost (answers_append.mpr ⟨v, hkept, hrest⟩) ?_
      rw [List.append_assoc]
      exact List.forall_mem_cons.mpr ⟨trivial, hsubject.passes_behind content htold hlast⟩
    | placed found reply =>
      obtain ⟨u', hplaced, hbackup⟩ : ∃ u', Answers host u [⟨.absolutePath target, .ok found⟩] u' ∧
          Answers host u' [⟨.backup found existing, reply⟩] b := answers_append.mp hattempted
      obtain ⟨_, hstep, rfl⟩ := hhost.step hplaced
      obtain ⟨hfound, hu'⟩ := hstep.of_absolutePath
      obtain rfl := Except.ok.inj (hfound.trans hsubject.path_eq)
      rw [← hu'] at hsubject
      have hready := h.of_passes hhost hplaced (List.forall_mem_singleton.mpr trivial)
      have hpast' := answers_append.mpr ⟨u, hpast, hplaced⟩
      have hend := hready.of_placed hhost hrecords hpast' hsubject hlast hbackup hrecording
        hrecorded hrest
      simpa using hend

def Spares (w : LocalWorkspace) (own : Place → Prop) (current : Place)
    (xs : List (Exchange Reply)) : Prop :=
  ∀ target content reply, (⟨.writeText target content, reply⟩ : Exchange Reply) ∈ xs →
    ∀ path, w.absolutePath target = .ok path → ¬ own (destination current path)

theorem exists_subject {target existing : Text} {seek still : List (Exchange Reply)}
    (hhost : w.Hosts host view) (hstill : ∀ x ∈ still, x.1.isEffect = false)
    (h : Answers host u (seek ++ ⟨.readText target, .ok existing⟩ :: still) t)
    (hfree : ∀ path, w.absolutePath target = .ok path →
      ¬ own (destination (view u).2.disk.current path)) :
    ∃ path bytes, w.Subject own (view t).2.disk target path bytes existing := by
  have hcurrent := hhost.current_eq h
  obtain ⟨found, -, h⟩ := answers_append.mp h
  obtain ⟨read, hread, h⟩ := hhost.step h
  obtain ⟨path, bytes, hpath, hbytes, htext⟩ := hread.of_readText
  rw [← (hread.still rfl).1, ← (hhost.still h hstill).1] at hbytes
  exact ⟨path, bytes, hpath, hbytes, htext, hcurrent ▸ hfree path hpath⟩

/-- A block makes at most one new pair, and passes by all others. -/
theorem InStep.of_course {block : Block} {result : BlockResult}
    (h : w.InStep host view own cap s past u) (hhost : w.Hosts host view)
    (hrecords : company.records = true) (hresolves : company.resolvesPaths = true)
    (hpast : Answers host s past u) (hcourse : Course settings company block xs result)
    (hxs : Answers host u xs t) (hspares : w.Spares own (view u).2.disk.current xs) :
    w.InStep host view own cap s (past ++ xs) t := by
  cases hcourse with
  | unresolved hseek hlast =>
    have hquiet := (quiet_of_resolveTarget hseek).append hlast.quiet
    exact h.of_passes hhost hxs (hquiet.passes w own _)
  | @resolved seek ys target _ hseek hvisit =>
    have hseek := quiet_of_resolveTarget hseek
    cases hvisit with
    | idle _ hquiet => exact h.of_passes hhost hxs ((hseek.append hquiet).passes w own _)
    | @creates asked folder last _ reply _ _ hasked hfolder hlast =>
      have hfolder : Quiet folder := by
        rcases hfolder with rfl | rfl
        · exact .nil
        · exact .cons rfl .nil
      have hwrite := hspares target block.code reply (by simp)
      refine h.of_passes hhost hxs (List.forall_mem_append.mpr ⟨hseek.passes w own _, ?_⟩)
      refine List.forall_mem_cons.mpr ⟨trivial, List.forall_mem_append.mpr ?_⟩
      refine ⟨hasked.quiet.passes w own _, List.forall_mem_append.mpr ⟨hfolder.passes w own _, ?_⟩⟩
      exact List.forall_mem_cons.mpr ⟨hwrite, hlast.quiet.passes w own _⟩
    | @updates existing revision told asked keeping last _ reply _ _ _ htold hasked hkeeping hlast =>
      let front := (seek ++ [⟨.fileExists target, .ok true⟩]) ++
        ⟨.readText target, .ok existing⟩ :: (told ++ asked)
      have hsplit : seek ++ ⟨.fileExists target, .ok true⟩ :: ⟨.readText target, .ok existing⟩ ::
          (told ++ (asked ++ (keeping ++ ⟨.writeText target revision.content, reply⟩ :: last))) =
          front ++ (keeping ++ ⟨.writeText target revision.content, reply⟩ :: last) := by simp [front]
      have hquiet : Quiet front :=
        (hseek.append (.cons rfl .nil)).append (.cons rfl (htold.telling.quiet.append hasked.quiet))
      rw [hsplit] at hxs hspares ⊢
      obtain ⟨f, hfront, hback⟩ := answers_append.mp hxs
      obtain ⟨v, hkept, hrest⟩ := answers_append.mp hback
      obtain ⟨path, bytes, hsubject⟩ := exists_subject hhost
        (List.forall_mem_append.mpr ⟨htold.telling.looking.uneffective, hasked.uneffective⟩) hfront
        (hspares target revision.content reply (by simp))
      have hready := h.of_passes hhost hfront (hquiet.passes w own _)
      rw [← List.append_assoc]
      exact hready.of_keeping hhost hrecords hresolves (answers_append.mpr ⟨u, hpast, hfront⟩)
        hsubject hkeeping hlast hkept hrest

theorem InStep.of_courses {blocks : List Block} {results : List BlockResult}
    (h : w.InStep host view own cap s past u) (hhost : w.Hosts host view)
    (hrecords : company.records = true) (hresolves : company.resolvesPaths = true)
    (hpast : Answers host s past u) (hcourses : Courses settings company blocks xs results)
    (hxs : Answers host u xs t) (hspares : w.Spares own (view u).2.disk.current xs) :
    w.InStep host view own cap s (past ++ xs) t := by
  induction hcourses generalizing past u with
  | nil =>
    obtain rfl : u = t := hxs
    simpa using h
  | @cons block blocks ys zs result results hcourse _ ih =>
    obtain ⟨v, hys, hzs⟩ := answers_append.mp hxs
    have hblock := h.of_course hhost hrecords hresolves hpast hcourse hys
      fun target content reply hmem => hspares target content reply (List.mem_append_left _ hmem)
    rw [← List.append_assoc]
    refine ih hblock (answers_append.mpr ⟨u, hpast, hys⟩) hzs ?_
    rw [hhost.current_eq hys]
    exact fun target content reply hmem => hspares target content reply (List.mem_append_right _ hmem)

/-- Behind a batch, the entries of the history are as many as the limit allows at most. Each stands for
a change, and its backup holds what was read of the file just before; these are the bytes of the file
exactly if they hold no carriage return. -/
theorem applyBlocks_keeps_changes {summary : Summary} {blocks : List Block} {ledger : Ledger}
    {after : World} {found : Except Fault (List HistoryEntry)} (hhost : w.Hosts host view)
    (hrecords : company.records = true) (hresolves : company.resolvesPaths = true)
    (hsound : (view s).2.disk.Sound) (hempty : (view s).1.AreEmpty (view s).2.disk cap)
    (hrun : run host (applyBlocks settings company blocks) s = (summary, t, xs))
    (hspares : w.Spares ((view s).1.Owns (view s).2.disk.current) (view s).2.disk.current xs)
    (hentries : (Ledger.entries.run.run (view t).1.ledger).Goes World.Falters (view t).2
      (found, ledger) after) :
    ∃ entries, found = .ok entries ∧ entries.length ≤ cap ∧ ∀ e ∈ entries, ∃ ref bytes text,
      e.backupRef = .text ref ∧ w.StandsFor host view s xs e bytes ∧
      Utf8.decode bytes = .ok text ∧
      after.disk.read ref = .ok (Utf8.encode (unifyNewlines text)) ∧
      (after.disk.read ref = .ok bytes ↔ '\r' ∉ text) := by
  obtain ⟨hplays, hanswers⟩ := run_eq_iff.mp hrun
  obtain ⟨ys, viewing, rfl, hcourses, hviewing⟩ := courses_of_applyBlocks hplays
  obtain ⟨u, hys, hviewed⟩ := answers_append.mp hanswers
  have hbegin : w.InStep host view ((view s).1.Owns (view s).2.disk.current) cap s [] s :=
    ⟨[], [], hempty.paired hsound.nodup _⟩
  have hblocks := hbegin.of_courses hhost hrecords hresolves rfl hcourses hys
    fun target content reply hmem => hspares target content reply (List.mem_append_left _ hmem)
  obtain ⟨entries, names, hpaired⟩ := hblocks.of_passes hhost hviewed (hviewing.passes w _ _)
  obtain ⟨rfl, -, hdisk⟩ := hpaired.ledger.of_goes_entries hentries
  refine ⟨entries, rfl, hpaired.pairs.length_eq ▸ hpaired.short, fun e he => ?_⟩
  obtain ⟨name, -, hbacks⟩ := hpaired.exists_backs he
  obtain ⟨_, ⟨bytes, text, hstands, hdecode, rfl⟩, hread⟩ := hbacks.holds
  rw [← hdisk] at hread
  refine ⟨_, bytes, text, hbacks.ref_eq, hstands, hdecode, hread, ?_⟩
  rw [hread, ← unifyNewlines_eq_self_iff]
  constructor
  · intro heq
    rw [← Utf8.encode_of_decode hdecode] at heq
    exact Utf8.encode_injective (Except.ok.inj heq)
  · intro heq
    rw [heq, Utf8.encode_of_decode hdecode]

end

/-- A machine with one file in a folder, and stores of one backup and one entry. Where the ledger
would be there is no folder, so it is never saved. -/
def oneKept (text : Text) : Stores × World :=
  (⟨⟨"/b", some 1, none⟩, ⟨"/f/history.json", 1, none⟩⟩,
    { disk :=
        { nodes := [(["ws"], .folder), (["f"], .file [] ⟨2024, 1, 2, 3, 4, 5, 6⟩),
            (["ws", "a.js"], .file (Utf8.encode text) ⟨2024, 1, 2, 3, 4, 5, 6⟩)] }
      now := ⟨2024, 1, 2, 3, 4, 5, 6⟩ })

/-- New codes for the file, one after another. -/
def updateKept (codes : List Text) (text : Text) :
    Summary × (Stores × World) × List (Exchange Reply) :=
  run (inMemory ⟨"/ws", false⟩)
    (applyBlocks {} { backups := true, records := true } (codes.map fun code => ⟨"a.js", [], code⟩))
    (oneKept text)

def entriesBehind (s : Stores × World) :
    (Except Fault (List HistoryEntry) × Ledger) × World × List (Exchange Answer) :=
  run World.host (Ledger.entries.run.run s.1.ledger) s.2

def onlyRef? : Except Fault (List HistoryEntry) → Option Text
  | .ok [⟨_, .text ref, _, _⟩] => some ref
  | _ => none

theorem of_owns_oneKept {text : Text} {place : Place} (h : (oneKept text).1.Owns [] place) :
    (∃ name, place = ["b".toList, name]) ∨ place = ["f".toList, "history.json".toList] := by
  have hfolder : destination [] "/b" = ["b".toList] := by decide
  have hledger : destination [] "/f/history.json" = ["f".toList, "history.json".toList] := by decide
  rcases h with ⟨name, -, rfl⟩ | rfl
  · exact .inl ⟨name, by rw [oneKept, hfolder]; rfl⟩
  · exact .inr hledger

theorem areEmpty_oneKept (text : Text) : (oneKept text).1.AreEmpty (oneKept text).2.disk 1 := by
  refine ⟨rfl, rfl, rfl, rfl, ?_, fun place howned content modified hnode => ?_⟩
  · have hfolder : destination [] "/b" = ["b".toList] := by decide
    have hledger : destination [] "/f/history.json" = ["f".toList, "history.json".toList] := by decide
    rintro ⟨name, -, heq⟩
    rw [oneKept, hfolder, hledger] at heq
    simp at heq
  · have hplaces := of_owns_oneKept howned
    have hmem := mem_of_node? hnode (by rcases hplaces with ⟨name, rfl⟩ | rfl <;> simp)
    rcases hplaces with ⟨name, rfl⟩ | rfl <;> simp [oneKept] at hmem

/-- Three updates in one instant. The third backup gets the name of the first, which is gone by then,
and the only entry is that of the third. -/
theorem applyBlocks_keeps_changes_of_one_instant :
    let ref : Text := "/b/a.js.2024-01-02T03-04-05-000006Z.bak"
    let (summary, t, xs) := updateKept ["2", "3", "4"] "1"
    let ((found, _), after, _) := entriesBehind t
    summary.results.map (·.status) = [.updated, .updated, .updated] ∧
      after.disk.read ref = .ok (Utf8.encode "3") ∧
      ∃ e bytes text, found = .ok [e] ∧ e.backupRef = .text ref ∧
        StandsFor ⟨"/ws", false⟩ (inMemory ⟨"/ws", false⟩) id (oneKept "1") xs e bytes ∧
        Utf8.decode bytes = .ok text ∧ (after.disk.read ref = .ok bytes ↔ '\r' ∉ text) := by
  intro ref
  have hcomputed :
      let (summary, t, xs) := updateKept ["2", "3", "4"] "1"
      let ((found, _), after, _) := entriesBehind t
      summary.results.map (·.status) = [.updated, .updated, .updated] ∧
        after.disk.read ref = .ok (Utf8.encode "3") ∧ onlyRef? found = some ref ∧
        (xs.all fun
          | ⟨.writeText target _, _⟩ => target = "a.js".toList
          | _ => true) = true := by
    decide +kernel
  rcases hrun : updateKept ["2", "3", "4"] "1" with ⟨summary, t, xs⟩
  rcases hfound : entriesBehind t with ⟨⟨found, ledger⟩, after, exchanges⟩
  simp only [hrun, hfound] at hcomputed ⊢
  obtain ⟨hstatus, hread, honly, hwrites⟩ := hcomputed
  have hsound : (oneKept "1").2.disk.Sound := ⟨by decide, by decide⟩
  have hspares : Spares ⟨"/ws", false⟩ ((oneKept "1").1.Owns []) [] xs := by
    intro target content reply hmem path hpath howned
    obtain rfl : target = "a.js".toList := by simpa using List.all_eq_true.mp hwrites _ hmem
    obtain rfl : "/ws/a.js".toList = path := Except.ok.inj hpath
    have hplace : destination [] "/ws/a.js" = ["ws".toList, "a.js".toList] := by decide
    rw [hplace] at howned
    rcases of_owns_oneKept howned with ⟨name, heq⟩ | heq <;> simp at heq
  have hentries : (Ledger.entries.run.run t.1.ledger).Goes World.Falters t.2 (found, ledger) after :=
    (goes_steps_iff.mpr ⟨congrArg Prod.fst hfound, congrArg (·.2.1) hfound,
      throughout_always World.host _ t.2⟩).mono fun _ _ _ _ => World.Tame.falters
  obtain ⟨entries, rfl, -, hall⟩ := applyBlocks_keeps_changes (hosts_inMemory ⟨"/ws", false⟩) rfl rfl
    hsound (areEmpty_oneKept "1") hrun hspares hentries
  unfold onlyRef? at honly
  split at honly
  next filePath found description timestamp heq =>
    obtain rfl := Option.some.inj honly
    obtain rfl := Except.ok.inj heq
    obtain ⟨_, bytes, text, hrefers, hstands, hdecode, -, hkeeps⟩ := hall _ List.mem_cons_self
    obtain rfl := Json.Value.text.inj hrefers
    exact ⟨hstatus, hread, _, bytes, text, rfl, rfl, hstands, hdecode, hkeeps⟩
  next => cases honly

/-- The backup of a file with a carriage return does not hold what the file held. -/
theorem applyBlocks_keeps_no_return :
    let text : Text := "1\r\n2"
    let (summary, t, _) := updateKept ["3"] text
    let ((found, _), after, _) := entriesBehind t
    let ref : Text := "/b/a.js.2024-01-02T03-04-05-000006Z.bak"
    summary.results.map (·.status) = [.updated] ∧
      (oneKept text).2.disk.read "/ws/a.js".toList = .ok (Utf8.encode text) ∧
      onlyRef? found = some ref ∧ after.disk.read ref = .ok (Utf8.encode "1\n2") := by
  decide +kernel

end LocalWorkspace

end CodeGraft
