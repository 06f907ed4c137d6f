import CodeGraft.Apply.Rehearsal
import CodeGraft.Proofs.Blockwise
import CodeGraft.Proofs.FenceLines
import CodeGraft.Proofs.OnMachine

/-!
# Dry runs

A dry run only inquires: it looks for files, reads them, asks the user and tells. So it leaves the
files as they are, and every block meets the files of the start. The user is asked the same as if
the block were applied to them, since whatever else a real run does comes behind its question.
-/

namespace CodeGraft

open Text Dialogue

namespace Request

/-- Whether a request only inquires: it looks for a file, reads one, asks the user or tells
something. -/
def isInquiring : Request → Bool
  | fileExists _ => true
  | readText _ => true
  | findByName _ => true
  | confirm _ _ => true
  | tell _ => true
  | detail _ => true
  | log _ => true
  | _ => false

/-- Whether a request serves to change a file: to write it, to make its folder or to keep its old
content. -/
def isChanging : Request → Bool
  | writeText _ _ => true
  | makeFolder _ => true
  | q => q.isKeeping

theorem isChanging_of_isKeeping {q : Request} (h : q.isKeeping = true) : q.isChanging = true := by
  cases q <;> first | rfl | exact h

theorem isInquiring_of_isLooking {q : Request} (h : q.isLooking = true) :
    q.isInquiring = true := by
  cases q <;> first | rfl | cases h

theorem isInquiring_of_isTelling {q : Request} (h : q.isTelling = true) : q.isInquiring = true :=
  isInquiring_of_isLooking (isLooking_of_isTelling h)

theorem not_isAsking_of_isTelling {q : Request} (h : q.isTelling = true) : (!q.isAsking) = true :=
  not_isAsking_of_isLooking (isLooking_of_isTelling h)

theorem not_isEffect_of_isInquiring {q : Request} (h : q.isInquiring = true) :
    q.isEffect = false := by
  cases q <;> first | rfl | cases h

end Request

namespace Session

variable {α β : Type} {kind : Request → Bool}

/-- Whatever is replied to it, a session makes requests of one kind only. -/
def KeepsTo (kind : Request → Bool) (d : Session α) : Prop :=
  ∀ xs a, d.Plays xs a → Within kind xs

theorem keepsTo_pure (a : α) : KeepsTo kind (pure a : Session α) := by
  intro xs b h
  rw [(plays_pure_iff.mp h).1]
  exact .nil

theorem keepsTo_ask {q : Request} (hq : kind q = true) : KeepsTo kind (ask q) := by
  intro xs r h
  rw [plays_ask_iff.mp h]
  exact .cons hq .nil

theorem KeepsTo.mono {kind' : Request → Bool} {d : Session α} (hd : KeepsTo kind d)
    (hkind : ∀ {q : Request}, kind q = true → kind' q = true) : KeepsTo kind' d :=
  fun xs a h x hx => hkind (hd xs a h x hx)

theorem KeepsTo.bind {d : Session α} {f : α → Session β} (hd : KeepsTo kind d)
    (hf : ∀ a, KeepsTo kind (f a)) : KeepsTo kind (d >>= f) :=
  fun _ b h => within_of_bind hd (fun a zs => hf a zs b) h

theorem KeepsTo.bind_run {x : Attempt α} {f : α → Attempt β} (hx : KeepsTo kind x.run)
    (hf : ∀ a, KeepsTo kind (f a).run) : KeepsTo kind (x >>= f).run := by
  rw [ExceptT.run_bind]
  refine hx.bind fun r => ?_
  cases r with
  | ok a => exact hf a
  | error e => exact keepsTo_pure _

theorem KeepsTo.lift_run {d : Session α} (hd : KeepsTo kind d) :
    KeepsTo kind (liftM d : Attempt α).run := hd.bind fun _ => keepsTo_pure _

theorem KeepsTo.adapt_run {x : Attempt α} (hx : KeepsTo kind x.run) (word : Fault → Fault) :
    KeepsTo kind (x.adapt word).run := hx.bind fun _ => keepsTo_pure _

end Session

open Session

section

variable {β : Type} {settings : Settings} {company : Company} {block : Block} {target : Text}

/-- The end of a visit: the question, if one is needed, and then the change, which a dry run only
reports. -/
def changeIfAgreed (settings : Settings) (target : Text) (needed : Bool)
    (question : Text × List Text) (rehearsed : BlockResult) (change : Attempt BlockResult) :
    Attempt BlockResult := do
  let agreed ← agreesIf needed question
  if !agreed then return ← declined target
  if settings.dryRun then return rehearsed
  change

theorem createFile_eq :
    createFile settings company block target =
      changeIfAgreed settings target (settings.confirmNew && company.confirms)
        (glue ["File \"", target, "\" does not exist. Create a new file?"], fileOptions)
        ⟨target, .created,
          glue ["DRY RUN: would create file (", ofNat block.code.length, " chars)"]⟩
        (do
          makeParent target
          save target block.code
          liftM (tell (glue ["  ✔ Created ", target]))
          return ⟨target, .created, "created file"⟩) := by
  simp only [createFile, changeIfAgreed, agreesIf]
  split <;> rfl

theorem updateFile_eq :
    updateFile settings company block target = (do
      let existing ← readText target
      liftM (tellRevision settings block.code existing)
      match revise settings block.code existing with
      | .ok revision =>
        changeIfAgreed settings target company.confirms
          (changeQuestion settings target existing revision.content)
          ⟨target, .updated, "DRY RUN: would apply ".toList ++ revision.how⟩
          (do
            liftM (backUp settings company target existing revision.how)
            save target revision.content
            liftM (tell (glue ["  ✔ Updated ", target, ": ", revision.how]))
            return ⟨target, .updated, revision.how⟩)
      | .error e => throw (.edit e)) := by
  simp only [updateFile]
  congr 1
  funext existing
  congr 1
  funext _
  cases revise settings block.code existing with
  | ok revision =>
    simp only [changeIfAgreed, agreesIf, pure_bind_eq]
    split <;> rfl
  | error e => rfl

theorem keepsTo_failure (fault : Fault) : KeepsTo Request.isTelling (failure target fault) :=
  fun _ _ h => (of_failure h).1

theorem keepsTo_nothingToApply (reason : Text) :
    KeepsTo Request.isTelling (nothingToApply settings reason) :=
  KeepsTo.bind (keepsTo_ask rfl) fun _ => keepsTo_pure _

theorem keepsTo_logAll (records : List LogRecord) : KeepsTo Request.isTelling (logAll records) :=
  fun _ _ h => (noting_of_logAll h).telling

variable {kind : Request → Bool}

theorem keepsTo_save {content message : Text} {result : BlockResult}
    (hwrite : kind (.writeText target content) = true) (htell : kind (.tell message) = true) :
    KeepsTo kind (do save target content; liftM (tell message); pure result :
      Attempt BlockResult).run := by
  refine KeepsTo.bind_run (KeepsTo.adapt_run (keepsTo_ask hwrite) _) fun _ => ?_
  exact KeepsTo.bind_run (KeepsTo.lift_run (keepsTo_ask htell)) fun _ => keepsTo_pure _

theorem keepsTo_makeParent (hmake : kind (.makeFolder (Path.dirname target)) = true) :
    KeepsTo kind (makeParent target).run := by
  unfold makeParent
  dsimp only
  split
  · exact keepsTo_pure _
  · exact KeepsTo.adapt_run (keepsTo_ask hmake) _

theorem keepsTo_changeIfAgreed {needed : Bool} {question : Text × List Text}
    {rehearsed : BlockResult} {change : Attempt BlockResult}
    (hinquires : ∀ {q : Request}, q.isInquiring = true → kind q = true)
    (hchange : settings.dryRun = false → KeepsTo kind change.run) :
    KeepsTo kind (changeIfAgreed settings target needed question rehearsed change).run := by
  unfold changeIfAgreed
  refine KeepsTo.bind_run ?_ fun agreed => ?_
  · unfold agreesIf
    split
    · exact KeepsTo.bind_run (keepsTo_ask (hinquires rfl)) fun _ => keepsTo_pure _
    · exact keepsTo_pure _
  · cases agreed with
    | false =>
      exact KeepsTo.bind_run (KeepsTo.lift_run (keepsTo_ask (hinquires rfl))) fun _ =>
        keepsTo_pure _
    | true =>
      cases hdry : settings.dryRun with
      | true => exact keepsTo_pure _
      | false => exact hchange hdry

/-- Whatever is done for a block is inquiring, unless the run is no rehearsal: then it is also what
serves to change a file. -/
theorem keepsTo_applyTo (hinquires : ∀ {q : Request}, q.isInquiring = true → kind q = true)
    (hchanges : settings.dryRun = false → ∀ {q : Request}, q.isChanging = true → kind q = true) :
    KeepsTo kind (applyTo settings company block target).run := by
  refine KeepsTo.bind_run (keepsTo_ask (hinquires rfl)) fun stands => ?_
  cases stands with
  | false =>
    change KeepsTo _ (createFile settings company block target).run
    rw [createFile_eq]
    refine keepsTo_changeIfAgreed hinquires fun hdry => ?_
    exact KeepsTo.bind_run (keepsTo_makeParent (hchanges hdry rfl)) fun _ =>
      keepsTo_save (hchanges hdry rfl) (hinquires rfl)
  | true =>
    change KeepsTo _ (updateFile settings company block target).run
    rw [updateFile_eq]
    refine KeepsTo.bind_run (keepsTo_ask (hinquires rfl)) fun existing => ?_
    have htold : KeepsTo Request.isNoting (tellRevision settings block.code existing) :=
      fun _ _ => noting_of_tellRevision
    refine KeepsTo.bind_run (htold.mono fun hq => ?_).lift_run fun _ => ?_
    · exact hinquires (Request.isInquiring_of_isTelling (Request.isTelling_of_isNoting hq))
    · split
      next revision _ =>
        refine keepsTo_changeIfAgreed hinquires fun hdry => ?_
        have hkept : KeepsTo Request.isKeeping
            (backUp settings company target existing revision.how) :=
          fun _ _ h => (keeping_of_backUp h).within
        have hkept := hkept.mono fun hq => hchanges hdry (Request.isChanging_of_isKeeping hq)
        exact KeepsTo.bind_run hkept.lift_run fun _ =>
          keepsTo_save (hchanges hdry rfl) (hinquires rfl)
      next => exact keepsTo_pure _

theorem keepsTo_applyBlock (hinquires : ∀ {q : Request}, q.isInquiring = true → kind q = true)
    (hchanges : settings.dryRun = false → ∀ {q : Request}, q.isChanging = true → kind q = true) :
    KeepsTo kind (applyBlock settings company block) := by
  have hfailure : ∀ target fault, KeepsTo kind (failure target fault) := fun _ fault =>
    (keepsTo_failure fault).mono fun hq => hinquires (Request.isInquiring_of_isTelling hq)
  have hseek : KeepsTo Request.isLooking (resolveTarget settings block.path).run :=
    fun _ _ => looking_of_resolveTarget
  have hseek := hseek.mono fun hq => hinquires (Request.isInquiring_of_isLooking hq)
  refine KeepsTo.bind hseek fun found => ?_
  cases found with
  | error fault => exact hfailure _ fault
  | ok target =>
    refine KeepsTo.bind (keepsTo_applyTo hinquires hchanges) fun r => ?_
    cases r with
    | error fault => exact hfailure _ fault
    | ok result => exact keepsTo_pure _

theorem keepsTo_applyEach
    (hblock : ∀ block, KeepsTo kind (applyBlock settings company block)) (blocks : List Block) :
    KeepsTo kind (applyEach settings company blocks) := by
  induction blocks with
  | nil => exact keepsTo_pure _
  | cons block blocks ih => exact (hblock block).bind fun _ => ih.bind fun _ => keepsTo_pure _

theorem inquiring_of_applyBlock (hdry : settings.dryRun = true) :
    KeepsTo Request.isInquiring (applyBlock settings company block) := by
  refine keepsTo_applyBlock id fun hreal => ?_
  rw [hdry] at hreal
  cases hreal

end

section

variable {σ α β γ : Type} {host : Host Reply σ} {s : σ}

abbrev Unasking (d : Session α) : Prop := KeepsTo (fun q => !q.isAsking) d

def questions (host : Host Reply σ) (d : Session α) (s : σ) : List (Exchange Reply) :=
  (run host d s).2.2.filter (·.1.isAsking)

theorem questions_bind (d : Session α) (f : α → Session β) :
    questions host (d >>= f) s =
      questions host d s ++ questions host (f (run host d s).1) (run host d s).2.1 := by
  simp only [questions, bind_eq, run_bind, List.filter_append]

theorem questions_eq_nil {d : Session α} (hd : Unasking d) :
    questions host d s = [] := by
  have hplays := (run_eq_iff.mp (rfl : run host d s = _)).1
  rw [questions, List.filter_eq_nil_iff]
  intro x hx
  simpa using hd _ _ hplays x hx

/-- Sessions that begin in the same way ask the same if they go on to ask the same. -/
theorem questions_bind_congr (d : Session α) {f : α → Session β} {g : α → Session γ}
    (h : ∀ a t, questions host (f a) t = questions host (g a) t) :
    questions host (d >>= f) s = questions host (d >>= g) s := by
  rw [questions_bind, questions_bind, h]

theorem questions_bind_run_congr (x : Attempt α) {f : α → Attempt β} {g : α → Attempt γ}
    (h : ∀ a t, questions host (f a).run t = questions host (g a).run t) :
    questions host (x >>= f).run s = questions host (x >>= g).run s := by
  rw [ExceptT.run_bind, ExceptT.run_bind]
  refine questions_bind_congr _ fun r t => ?_
  cases r with
  | ok a => exact h a t
  | error e => rfl

theorem questions_bind_of_unasked {d e : Session α} {f : α → Session β}
    (hf : ∀ a, Unasking (f a)) (h : questions host d s = questions host e s) :
    questions host (d >>= f) s = questions host (e >>= f) s := by
  rw [questions_bind, questions_bind, questions_eq_nil (hf _), questions_eq_nil (hf _), h]

variable {settings : Settings} {company : Company} {block : Block} {target : Text}

/-- In a dry run the user is asked what a real run asks, if the change asks nothing. -/
theorem questions_of_changeIfAgreed {needed : Bool} {question : Text × List Text}
    {rehearsed : BlockResult} {unmade change : Attempt BlockResult}
    (hchange : Unasking change.run) :
    questions host (changeIfAgreed { settings with dryRun := true } target needed question rehearsed
        unmade).run s =
      questions host (changeIfAgreed { settings with dryRun := false } target needed question
        rehearsed change).run s := by
  refine questions_bind_run_congr _ fun agreed t => ?_
  cases agreed with
  | false => rfl
  | true => exact (questions_eq_nil (keepsTo_pure _)).trans (questions_eq_nil hchange).symm

theorem questions_of_applyTo :
    questions host (applyTo { settings with dryRun := true } company block target).run s =
      questions host (applyTo { settings with dryRun := false } company block target).run s := by
  refine questions_bind_run_congr _ fun stands t => ?_
  cases stands with
  | false =>
    change questions host (createFile _ _ _ _).run t = questions host (createFile _ _ _ _).run t
    rw [createFile_eq, createFile_eq]
    refine questions_of_changeIfAgreed (KeepsTo.bind_run ?_ fun _ => keepsTo_save rfl rfl)
    exact fun xs r h => (folder_of_makeParent h).1.2
  | true =>
    change questions host (updateFile _ _ _ _).run t = questions host (updateFile _ _ _ _).run t
    rw [updateFile_eq, updateFile_eq]
    refine questions_bind_run_congr _ fun existing u => ?_
    refine questions_bind_run_congr _ fun _ v => ?_
    -- what a block makes of a file does not depend on whether the run is dry
    have hrevise : ∀ b, revise { settings with dryRun := b } block.code existing =
        revise settings block.code existing := fun _ => rfl
    rw [hrevise true, hrevise false]
    cases revise settings block.code existing with
    | ok revision =>
      refine questions_of_changeIfAgreed (KeepsTo.bind_run (KeepsTo.lift_run ?_) fun _ =>
        keepsTo_save rfl rfl)
      intro xs u h x hx
      exact Request.not_isAsking_of_isKeeping ((keeping_of_backUp h).within x hx)
    | error e => rfl

/-- The user is asked about a block in a dry run what they are asked about it in a real one from the
same state. -/
theorem questions_of_applyBlock :
    questions host (applyBlock { settings with dryRun := true } company block) s =
      questions host (applyBlock { settings with dryRun := false } company block) s := by
  refine questions_bind_congr _ fun found t => ?_
  cases found with
  | error fault => rfl
  | ok target =>
    refine questions_bind_of_unasked (fun r => ?_) questions_of_applyTo
    cases r with
    | ok result => exact keepsTo_pure _
    | error fault => exact (keepsTo_failure fault).mono Request.not_isAsking_of_isTelling

end

/-- A host with files in its state, which inquiries leave as they are. -/
structure FileHost (σ φ : Type) where
  host : Host Reply σ
  files : σ → φ
  keeps : ∀ s q, q.isInquiring = true → files (host q s).2 = files s

section

variable {σ φ α : Type} (h : FileHost σ φ) {s t : σ} {settings : Settings} {company : Company}

theorem FileHost.files_of_answers {xs : List (Exchange Reply)} (hxs : Within Request.isInquiring xs)
    (hanswers : Answers h.host s xs t) : h.files t = h.files s :=
  hanswers.keeps fun x hx u => h.keeps u x.1 (hxs x hx)

theorem FileHost.files_of_run {d : Session α} (hd : KeepsTo Request.isInquiring d) (s : σ) :
    h.files (run h.host d s).2.1 = h.files s := by
  obtain ⟨hplays, hanswers⟩ := run_eq_iff.mp (rfl : run h.host d s = _)
  exact h.files_of_answers (hd _ _ hplays) hanswers

end

def Rehearsal.filed : FileHost Rehearsal (List (Text × Text)) where
  host := Rehearsal.host
  files r := r.files
  keeps := by
    intro r q hq
    cases q <;> first | rfl | cases hq

/-- The disk under a local workspace, with its stores and its user at the console. -/
def LocalWorkspace.filed (w : LocalWorkspace) : FileHost (Stores × World) Disk where
  host q s :=
    let replied := run World.host ((w.reply q).run s.1) s.2
    (replied.1.1, replied.1.2, replied.2.1)
  files s := s.2.disk
  keeps := by
    intro s q hq
    have hgoes := goes_steps_iff.mpr
      ⟨rfl, rfl, throughout_always World.host ((w.reply q).run s.1) s.2⟩
    exact (w.still_of_steps (Request.not_isEffect_of_isInquiring hq) hgoes).1

/-! ### Dry batches -/

section

variable {σ φ : Type} {settings : Settings} {company : Company}

theorem openWritten_of_dry (hdry : settings.dryRun = true) (results : List BlockResult) :
    openWritten settings company (writtenPaths settings results) = pure [] := by
  simp [openWritten, writtenPaths, hdry]

theorem run_applyBlocks_of_dry (host : Host Reply σ) (hdry : settings.dryRun = true)
    (blocks : List Block) (s : σ) :
    run host (applyBlocks settings company blocks) s =
      let each := run host (applyEach settings company blocks) s
      ({ results := each.1, dryRun := true }, each.2) := by
  simp only [applyBlocks, openWritten_of_dry hdry, hdry, bind_eq, pure_eq, run_bind, run_done,
    List.append_nil]

theorem blockwise_of_dry (h : FileHost σ φ) (settings : Settings) (company : Company)
    (blocks : List Block) (s : σ) :
    let batch := run h.host (applyBlocks { settings with dryRun := true } company blocks) s
    Blockwise h.host { settings with dryRun := true } company
      (fun u block xs _ => h.files u = h.files s ∧ xs.filter (·.1.isAsking) =
        questions h.host (applyBlock { settings with dryRun := false } company block) u)
      s blocks batch.2.2 batch.1.results batch.2.1 := by
  have hasks : ∀ u t block xs result,
      run h.host (applyBlock { settings with dryRun := true } company block) u = (result, t, xs) →
      xs.filter (·.1.isAsking) =
        questions h.host (applyBlock { settings with dryRun := false } company block) u := by
    intro u t block xs result hrun
    rw [← questions_of_applyBlock, questions, hrun]
  have hkeeps : ∀ u t block xs result,
      run h.host (applyBlock { settings with dryRun := true } company block) u = (result, t, xs) →
      h.files u = h.files s → h.files t = h.files s := by
    intro u t block xs result hrun hu
    have hinquiring : KeepsTo Request.isInquiring
        (applyBlock { settings with dryRun := true } company block) := inquiring_of_applyBlock rfl
    have hkept := h.files_of_run hinquiring u
    rw [hrun] at hkept
    exact hkept.trans hu
  rw [run_applyBlocks_of_dry h.host rfl]
  exact ((blockwise_of_applyEach hasks s blocks).invariant hkeeps rfl).1

theorem inquiring_of_applyText (hdry : settings.dryRun = true) (text : Text) :
    KeepsTo Request.isInquiring (applyText settings company text) := by
  unfold applyText
  split
  · exact (keepsTo_nothingToApply _).mono Request.isInquiring_of_isTelling
  · refine KeepsTo.bind ((keepsTo_logAll _).mono Request.isInquiring_of_isTelling) fun _ => ?_
    split
    · exact (keepsTo_nothingToApply _).mono Request.isInquiring_of_isTelling
    · refine (keepsTo_applyEach (fun _ => inquiring_of_applyBlock hdry) _).bind fun results => ?_
      rw [openWritten_of_dry hdry]
      exact keepsTo_pure _

theorem blocks_of_fenceFree {text : Text} (h : FenceFree text) : blocks text = [] := by
  have hnone : Fence.all text = [] :=
    Fence.ofLines_of_fenceFree fun line hline => h.of_infix (isInfix_of_mem_lines hline)
  rw [blocks, readRegions, Region.all, hnone, Region.ofFences, List.map_nil, List.filterMap_nil]

theorem exists_blocks_of_applyText (h : FileHost σ φ) (settings : Settings) (company : Company)
    {text : Text} (hblank : isBlankText text = false) (s : σ) :
    ∃ rest : Session Summary,
      applyText { settings with dryRun := true } company text =
        (do logAll (unaddressedRecords text); rest) ∧
      ∃ xs behind t, (run h.host rest s).2.2 = xs ++ behind ∧ Unasked behind ∧
        Blockwise h.host { settings with dryRun := true } company
          (fun u block xs _ => h.files u = h.files s ∧ xs.filter (·.1.isAsking) =
            questions h.host (applyBlock { settings with dryRun := false } company block) u)
          s (blocks text) xs (run h.host rest s).1.results t := by
  cases hfound : blocks text with
  | nil =>
    obtain ⟨rest, hrest⟩ : ∃ rest, rest = nothingToApply { settings with dryRun := true }
      "no code blocks with file paths were found." := ⟨_, rfl⟩
    have hplays := (run_eq_iff.mp (rfl : run h.host rest s = _)).1
    rw [hrest] at hplays
    refine ⟨rest, by simp [applyText, hblank, hfound, hrest], [], (run h.host rest s).2.2, s, rfl,
      ?_⟩
    rw [hrest, results_of_nothingToApply hplays]
    exact ⟨(keepsTo_nothingToApply _).mono Request.not_isAsking_of_isTelling _ _ hplays, .nil s⟩
  | cons block more =>
    have hblocks := blockwise_of_dry h settings company (block :: more) s
    exact ⟨applyBlocks { settings with dryRun := true } company (block :: more),
      by simp [applyText, hblank, hfound], _, [], _, (List.append_nil _).symm, .nil, hblocks⟩

end

/-- Whatever the workspace and its company reply, a dry run of a text only inquires: nothing is
written, no folder is made, nothing is backed up, recorded or viewed, and all files stay as they
are. Its blocks meet the files of the start, and of each block the user is asked just what they
would be asked, and answers what they would answer, if the block were applied there for real. -/
theorem applyText_inquires_of_dry {σ φ : Type} (h : FileHost σ φ) (s : σ) (settings : Settings)
    (company : Company) (text : Text) :
    let dry := { settings with dryRun := true }
    let real := { settings with dryRun := false }
    let batch := run h.host (applyText dry company text) s
    Within Request.isInquiring batch.2.2 ∧ h.files batch.2.1 = h.files s ∧
      ∃ before xs behind t u, batch.2.2 = before ++ (xs ++ behind) ∧
        Unasked before ∧ Unasked behind ∧ Answers h.host s before t ∧
        Blockwise h.host dry company
          (fun v block xs _ => h.files v = h.files s ∧ xs.filter (·.1.isAsking) =
            questions h.host (applyBlock real company block) v)
          t (blocks text) xs batch.1.results u := by
  intro dry real batch
  have hinquiring : KeepsTo Request.isInquiring (applyText dry company text) :=
    inquiring_of_applyText rfl text
  refine ⟨hinquiring _ _ (run_eq_iff.mp rfl).1, h.files_of_run hinquiring s, ?_⟩
  cases hblank : isBlankText text with
  | true =>
    have hbatch : batch = run h.host (nothingToApply dry "no text was provided.") s := by
      simp only [batch, applyText, hblank, if_true]
    have hplays := (run_eq_iff.mp hbatch.symm).1
    rw [blocks_of_fenceFree (fenceFree_of_blank hblank), results_of_nothingToApply hplays]
    have hunasked := (keepsTo_nothingToApply _).mono Request.not_isAsking_of_isTelling _ _ hplays
    exact ⟨[], [], batch.2.2, s, s, rfl, .nil, hunasked, rfl, .nil s⟩
  | false =>
    rcases hlog : run h.host (logAll (unaddressedRecords text)) s with ⟨_, t, before⟩
    obtain ⟨hlogged, hbefore⟩ := run_eq_iff.mp hlog
    have htelling := keepsTo_logAll (unaddressedRecords text)
    have hunasked := htelling.mono Request.not_isAsking_of_isTelling _ _ hlogged
    have hkept : h.files t = h.files s := h.files_of_answers
      (htelling.mono Request.isInquiring_of_isTelling _ _ hlogged) hbefore
    obtain ⟨rest, htext, xs, behind, u, hxs, hbehind, hblocks⟩ :=
      exists_blocks_of_applyText h settings company hblank t
    have hbatch : batch =
        ((run h.host rest t).1, (run h.host rest t).2.1, before ++ (xs ++ behind)) := by
      simp only [batch, dry, htext, bind_eq, run_bind, hlog, ← hxs]
    rw [hkept] at hblocks
    rw [hbatch]
    exact ⟨before, xs, behind, t, u, rfl, hunasked, hbehind, hbefore, hblocks⟩

end CodeGraft
