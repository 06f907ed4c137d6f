import CodeGraft.Proofs.DryRuns
import CodeGraft.Proofs.Truth
import CodeGraft.Proofs.Unrelated
import Mathlib.Data.Char
import Mathlib.Data.Finset.Sort
import Mathlib.Data.List.Lex

/-!
# What a dry run foretells

A dry run looks at the files from which it starts, while a real run looks at what its earlier blocks
have made of them. Where the workspace never fails and nobody is asked, what a run says of a block
goes by the paths of the files alone. So the dry run is right about all blocks exactly if no block
has its hint resolved in another way, and none finds its file standing, because of the files that
blocks in front of it make.
-/

namespace CodeGraft

open Text Dialogue

/-- A workspace in memory whose calls never fail. What it finds by a name goes by the paths of its
files. -/
structure SureHost (σ : Type) extends MemoryHost σ where
  paths : σ → Finset Text
  /-- The files that are found by a name among those of some paths. -/
  finds : Finset Text → Text → List Text
  mem_paths : ∀ s path, path ∈ paths s ↔ (content? s path).isSome = true
  exists_reply : ∀ s path, (host (.fileExists path) s).1 = .ok (content? s path).isSome
  read_reply : ∀ s path, path ∈ paths s → ∃ text, (host (.readText path) s).1 = .ok text
  write_reply : ∀ s path text, (host (.writeText path text) s).1 = .ok ()
  folder_reply : ∀ s path, (host (.makeFolder path) s).1 = .ok ()
  find_reply : ∀ s name, (host (.findByName name) s).1 = .ok (finds (paths s) name)

namespace SureHost

variable {σ : Type} (m : SureHost σ) {s t : σ} {settings : Settings} {company : Company}
  {folder : Text}

/-- The file that a path stands for among the files of some paths. -/
def nameAmong (paths : Finset Text) (path : Text) : Text :=
  if isBareName path ∧ path ∉ paths then
    match m.finds paths path with
    | [only] => only
    | _ => path
  else path

/-- The path that a hint stands for among the files of some paths, where relative hints are put
under a folder unless its name is empty. -/
def targetAmong (folder : Text) (paths : Finset Text) (hint : Text) : Text :=
  if Path.isAbsolute (cleanHint hint) then cleanHint hint
  else if folder.isEmpty then m.nameAmong paths (Path.normalize (cleanHint hint))
  else Path.normalize (Path.join (cleanHint folder) (cleanHint hint))

def outcomeAmong (folder : Text) (paths : Finset Text) (block : Block) : Text × Status :=
  let target := m.targetAmong folder paths block.path
  (target, if target ∈ paths then .updated else .created)

/-- The outcomes of blocks, each of which adds its file to those that stand. -/
def outcomesFrom (folder : Text) : Finset Text → List Block → List (Text × Status)
  | _, [] => []
  | paths, block :: blocks =>
    let outcome := m.outcomeAmong folder paths block
    outcome :: outcomesFrom folder (insert outcome.1 paths) blocks

def foretoldPaths (folder : Text) (paths : Finset Text) (blocks : List Block) : Finset Text :=
  (blocks.map fun block => m.targetAmong folder paths block.path).toFinset

/-- Files that may stand besides change nothing for a block if its target stays the same, and stands
only where it stood. -/
theorem outcomeAmong_eq_iff {paths more : Finset Text} (hmore : paths ⊆ more) (block : Block) :
    m.outcomeAmong folder more block = m.outcomeAmong folder paths block ↔
      m.targetAmong folder more block.path = m.targetAmong folder paths block.path ∧
        (m.targetAmong folder paths block.path ∈ more →
          m.targetAmong folder paths block.path ∈ paths) := by
  simp only [outcomeAmong, Prod.mk.injEq]
  refine and_congr_right fun htarget => ?_
  rw [htarget]
  by_cases hold : m.targetAmong folder paths block.path ∈ paths
  · simp [hold, hmore hold]
  · by_cases hnew : m.targetAmong folder paths block.path ∈ more
    · simp [hold, hnew]
    · simp [hold, hnew]

theorem union_foretoldPaths_cons (paths now : Finset Text) (block : Block) (front : List Block) :
    now ∪ m.foretoldPaths folder paths (block :: front) =
      insert (m.outcomeAmong folder paths block).1 now ∪ m.foretoldPaths folder paths front := by
  rw [foretoldPaths, List.map_cons, List.toFinset_cons, Finset.union_insert, Finset.insert_union]
  rfl

/-- What is foretold of blocks by the files at the start comes true, block by block, if it comes
true among the files that stand at the start or are foretold to be written. -/
theorem map_outcomeAmong_eq_iff {paths now : Finset Text} {blocks : List Block} :
    blocks.map (m.outcomeAmong folder paths) = m.outcomesFrom folder now blocks ↔
      ∀ front block behind, blocks = front ++ block :: behind →
        m.outcomeAmong folder (now ∪ m.foretoldPaths folder paths front) block =
          m.outcomeAmong folder paths block := by
  -- what stands grows with each block, while `paths` stays what the dry run sees
  induction blocks generalizing now with
  | nil => simp [outcomesFrom]
  | cons block blocks ih =>
    rw [List.map_cons, outcomesFrom, List.cons_eq_cons]
    constructor
    · rintro ⟨hblock, hblocks⟩ front other behind hsplit
      rw [← hblock, ih] at hblocks
      cases front with
      | nil =>
        obtain ⟨rfl, rfl⟩ := List.cons_eq_cons.mp hsplit
        simpa [foretoldPaths] using hblock.symm
      | cons first front =>
        rw [List.cons_append, List.cons_eq_cons] at hsplit
        obtain ⟨rfl, hsplit⟩ := hsplit
        rw [union_foretoldPaths_cons]
        exact hblocks front other behind hsplit
    · intro h
      have hblock : m.outcomeAmong folder now block = m.outcomeAmong folder paths block := by
        simpa [foretoldPaths] using h [] block blocks rfl
      rw [hblock, ih]
      refine ⟨rfl, fun front other behind hsplit => ?_⟩
      rw [← union_foretoldPaths_cons]
      exact h (block :: front) other behind (by rw [hsplit, List.cons_append])

/-! ### Runs of a block -/

abbrev steps : Step Reply σ := Host.steps m.host fun _ _ => true

theorem goes_of_run {α : Type} {d : Session α} {a : α} {xs : List (Exchange Reply)}
    (h : run m.host d s = (a, t, xs)) : d.Goes m.steps s a t :=
  goes_steps_iff.mpr ⟨by rw [h], by rw [h], throughout_always m.host d s⟩

variable {m}

theorem paths_eq_of_content_eq (h : m.content? t = m.content? s) : m.paths t = m.paths s := by
  ext path
  rw [m.mem_paths, m.mem_paths, h]

theorem reply_of_goes {q : Request} {r : Reply q} (h : (Session.ask q).Goes m.steps s r t) :
    (m.host q s).1 = r ∧ (m.host q s).2 = t := by
  obtain ⟨-, hreply⟩ := goes_question_iff.mp h
  exact ⟨congrArg Prod.fst hreply, congrArg Prod.snd hreply⟩

theorem goes_bind_of_sure {α β : Type} {x : Attempt α} {f : α → Attempt β} {r : Except Fault β}
    {a : α} (hx : ∀ found u, x.run.Goes m.steps s found u → found = .ok a)
    (h : (x >>= f).run.Goes m.steps s r t) :
    ∃ u, x.run.Goes m.steps s (.ok a) u ∧ (f a).run.Goes m.steps u r t := by
  rcases goes_bind_run_iff.mp h with ⟨e, hfault, -⟩ | ⟨b, u, hok, hrest⟩
  · cases hx _ _ hfault
  · cases hx _ _ hok
    exact ⟨u, hok, hrest⟩

theorem exists_of_goes {path : Text} {found : Except Fault Bool}
    (h : (Session.fileExists path).run.Goes m.steps s found t) :
    found = .ok (m.content? s path).isSome :=
  (reply_of_goes h).1.symm.trans (m.exists_reply s path)

theorem goes_fileExists_bind {β : Type} {path : Text} {f : Bool → Attempt β} {r : Except Fault β}
    (h : (Session.fileExists path >>= f).run.Goes m.steps s r t) :
    ∃ u, m.paths u = m.paths s ∧ (f (decide (path ∈ m.paths s))).run.Goes m.steps u r t := by
  obtain ⟨u, hexists, hrest⟩ := goes_bind_of_sure (fun _ _ => exists_of_goes) h
  obtain rfl := (reply_of_goes hexists).2
  have hanswer : (m.content? s path).isSome = decide (path ∈ m.paths s) := by simp [m.mem_paths]
  rw [hanswer] at hrest
  exact ⟨_, paths_eq_of_content_eq (m.keeps s _ (by simp)), hrest⟩

theorem name_of_goes {path : Text} {r : Except Fault Resolved}
    (h : (resolveName path).run.Goes m.steps s r t) :
    ∃ resolved, r = .ok resolved ∧ resolved.path = m.nameAmong (m.paths s) path := by
  simp only [resolveName] at h
  split at h
  next hbare =>
    have hbare : isBareName path = false := by simpa using hbare
    obtain ⟨rfl, -⟩ := goes_pure_run_iff.mp h
    exact ⟨_, rfl, by simp [nameAmong, hbare]⟩
  next hbare =>
    have hbare : isBareName path = true := by simpa using hbare
    obtain ⟨u, hpaths, hrest⟩ := goes_fileExists_bind h
    split at hrest
    next hstands =>
      have hstands : path ∈ m.paths s := by simpa using hstands
      obtain ⟨rfl, -⟩ := goes_pure_run_iff.mp hrest
      exact ⟨_, rfl, by simp [nameAmong, hstands]⟩
    next hstands =>
      have hstands : path ∉ m.paths s := by simpa using hstands
      obtain ⟨v, -, hfound⟩ := goes_bind_of_sure
        (fun _ _ hfind => (reply_of_goes hfind).1.symm.trans (m.find_reply u path)) hrest
      rw [hpaths] at hfound
      simp only [nameAmong, hbare, hstands, not_false_eq_true, and_self, if_true]
      split at hfound
      next hnone =>
        obtain ⟨rfl, -⟩ := goes_pure_run_iff.mp hfound
        exact ⟨_, rfl, by rw [hnone]⟩
      next only honly =>
        obtain ⟨rfl, -⟩ := goes_pure_run_iff.mp hfound
        exact ⟨_, rfl, by rw [honly]⟩
      next several hnone hmany =>
        obtain ⟨rfl, -⟩ := goes_pure_run_iff.mp hfound
        refine ⟨_, rfl, ?_⟩
        split
        next only honly => exact absurd honly (hmany only)
        next => rfl

theorem target_of_goes {hint : Text} {r : Except Fault Text}
    (h : (resolveTarget settings hint).run.Goes m.steps s r t) :
    r = .ok (m.targetAmong settings.saveFolder (m.paths s) hint) := by
  simp only [resolveTarget] at h
  unfold targetAmong
  split at h
  next habsolute =>
    rw [if_pos habsolute]
    exact (goes_pure_run_iff.mp h).1
  next habsolute =>
    rw [if_neg habsolute]
    split at h
    next hfolder =>
      rw [if_neg (by simpa using hfolder)]
      exact (goes_pure_run_iff.mp h).1
    next hfolder =>
      rw [if_pos (by simpa using hfolder)]
      rcases goes_bind_run_iff.mp h with ⟨e, hfault, -⟩ | ⟨resolved, u, hname, hrest⟩
      · obtain ⟨resolved, hok, -⟩ := name_of_goes hfault
        cases hok
      obtain ⟨_, hok, hpath⟩ := name_of_goes hname
      cases hok
      obtain ⟨-, v, -, hpure⟩ := goes_lift_bind_run_iff.mp hrest
      rw [← hpath]
      exact (goes_pure_run_iff.mp hpure).1

theorem result_of_save {target content message : Text} {written : BlockResult}
    {r : Except Fault BlockResult}
    (h : (do save target content; liftM (Session.tell message); pure written :
      Attempt BlockResult).run.Goes m.steps s r t) : r = .ok written := by
  have hsaved : ∀ saved u, (save target content).run.Goes m.steps s saved u → saved = .ok () := by
    intro saved u hsave
    obtain ⟨reply, hwrite, rfl⟩ := goes_adapt_run_iff.mp hsave
    rw [← (reply_of_goes hwrite).1, m.write_reply]
    rfl
  obtain ⟨u, -, hrest⟩ := goes_bind_of_sure hsaved h
  obtain ⟨-, v, -, hpure⟩ := goes_lift_bind_run_iff.mp hrest
  exact (goes_pure_run_iff.mp hpure).1

theorem result_of_changeIfAgreed {target detail : Text} {status : Status}
    {question : Text × List Text} {change : Attempt BlockResult} {r : Except Fault BlockResult}
    (hchange : ∀ u, change.run.Goes m.steps u r t → ∃ how, r = .ok ⟨target, status, how⟩)
    (h : (changeIfAgreed settings target false question ⟨target, status, detail⟩
      change).run.Goes m.steps s r t) :
    ∃ how, r = .ok ⟨target, status, how⟩ := by
  have hchanged : (if settings.dryRun then pure ⟨target, status, detail⟩ else
      change : Attempt BlockResult).run.Goes m.steps s r t := h
  split at hchanged
  · exact ⟨detail, (goes_pure_run_iff.mp hchanged).1⟩
  · exact hchange s hchanged

theorem result_of_updateFile {block : Block} {target : Text} {r : Except Fault BlockResult}
    (hconfirms : company.confirms = false) (hstands : target ∈ m.paths s)
    (h : (updateFile settings company block target).run.Goes m.steps s r t) :
    ∃ how, r = .ok ⟨target, .updated, how⟩ := by
  obtain ⟨existing, hread⟩ := m.read_reply s target hstands
  rw [updateFile_eq, hconfirms] at h
  obtain ⟨u, -, hrest⟩ := goes_bind_of_sure
    (fun _ _ hfile => (reply_of_goes hfile).1.symm.trans hread) h
  obtain ⟨-, v, -, hmake⟩ := goes_lift_bind_run_iff.mp hrest
  obtain ⟨revision, hrevise⟩ := exists_revision settings block.code existing
  rw [hrevise] at hmake
  refine result_of_changeIfAgreed (fun w hchange => ?_) hmake
  obtain ⟨-, x, -, hsave⟩ := goes_lift_bind_run_iff.mp hchange
  exact ⟨_, result_of_save hsave⟩

theorem result_of_createFile {block : Block} {target : Text} {r : Except Fault BlockResult}
    (hconfirms : company.confirms = false)
    (h : (createFile settings company block target).run.Goes m.steps s r t) :
    ∃ how, r = .ok ⟨target, .created, how⟩ := by
  have hmade : ∀ u made v, (makeParent target).run.Goes m.steps u made v → made = .ok () := by
    intro u made v hmake
    simp only [makeParent] at hmake
    split at hmake
    · exact (goes_pure_run_iff.mp hmake).1
    · obtain ⟨reply, hfolder, rfl⟩ := goes_adapt_run_iff.mp hmake
      rw [← (reply_of_goes hfolder).1, m.folder_reply]
      rfl
  rw [createFile_eq, hconfirms, Bool.and_false] at h
  refine result_of_changeIfAgreed (fun u hchange => ?_) h
  obtain ⟨v, -, hsave⟩ := goes_bind_of_sure (hmade u) hchange
  exact ⟨_, result_of_save hsave⟩

theorem paths_of_resolveTarget {hint : Text} {r : Except Fault Text}
    (h : (resolveTarget settings hint).run.Goes m.steps s r t) : m.paths t = m.paths s := by
  obtain ⟨xs, hplays, hfollows⟩ := goes_iff_plays.mp h
  have hkeeps : ∀ q u reply v, q.isQuiet = true → m.steps q u reply v →
      m.content? v = m.content? u := by
    rintro q u reply v hquiet ⟨-, hreply⟩
    obtain rfl : (m.host q u).2 = v := congrArg Prod.snd hreply
    refine m.keeps u q ?_
    rintro path text rfl
    cases hquiet
  exact paths_eq_of_content_eq (hfollows.keeps hkeeps (quiet_of_resolveTarget hplays))

theorem outcome_of_goes {block : Block} {result : BlockResult}
    (hconfirms : company.confirms = false)
    (h : (applyBlock settings company block).Goes m.steps s result t) :
    (result.path, result.status) = m.outcomeAmong settings.saveFolder (m.paths s) block := by
  obtain ⟨found, u, hseek, hfound⟩ := goes_bind_iff.mp h
  obtain rfl := target_of_goes hseek
  have hpaths := paths_of_resolveTarget hseek
  obtain ⟨r, v, happly, hlast⟩ := goes_bind_iff.mp hfound
  obtain ⟨w, hpaths', hvisit⟩ := goes_fileExists_bind happly
  rw [hpaths] at hpaths' hvisit
  simp only [outcomeAmong]
  split at hvisit
  next hstands =>
    have hstands := of_decide_eq_true hstands
    obtain ⟨how, rfl⟩ := result_of_updateFile hconfirms (by rwa [hpaths']) hvisit
    obtain ⟨rfl, -⟩ := goes_pure_iff.mp hlast
    rw [if_pos hstands]
  next hnew =>
    obtain ⟨how, rfl⟩ := result_of_createFile hconfirms hvisit
    obtain ⟨rfl, -⟩ := goes_pure_iff.mp hlast
    rw [if_neg (by simpa using hnew)]

theorem paths_of_run {block : Block} {result : BlockResult} {xs : List (Exchange Reply)}
    (hconfirms : company.confirms = false)
    (h : run m.host (applyBlock settings company block) s = (result, t, xs)) :
    m.paths t = if settings.dryRun then m.paths s
      else insert (m.outcomeAmong settings.saveFolder (m.paths s) block).1 (m.paths s) := by
  have houtcome := outcome_of_goes hconfirms (m.goes_of_run h)
  obtain ⟨hplays, hanswers⟩ := run_eq_iff.mp h
  have htrue := (m.isTrue_of_course (course_of_applyBlock hplays) hanswers).2
  rw [← houtcome]
  have hstatus : result.status = .updated ∨ result.status = .created := by
    rw [show result.status = _ from congrArg Prod.snd houtcome, outcomeAmong]
    split
    · exact .inl rfl
    · exact .inr rfl
  split
  next hdry =>
    refine paths_eq_of_content_eq ?_
    rcases hstatus with hstatus | hstatus <;> simpa [BlockResult.IsTrue, hstatus, hdry] using htrue
  next hdry =>
    have hwritten : ∃ text,
        m.content? t = Function.update (m.content? s) result.path (some text) := by
      rcases hstatus with hstatus | hstatus
      · simp only [BlockResult.IsTrue, hstatus, hdry] at htrue
        obtain ⟨-, revision, -, -, hafter⟩ := htrue
        exact ⟨_, hafter⟩
      · simp only [BlockResult.IsTrue, hstatus, hdry] at htrue
        exact ⟨_, htrue.2⟩
    obtain ⟨text, hafter⟩ := hwritten
    ext path
    rw [Finset.mem_insert, m.mem_paths, m.mem_paths, hafter]
    by_cases hpath : path = result.path
    · simp [hpath]
    · simp [hpath]

/-- What a batch says of its blocks: the paths and the statuses of their results. -/
def outcomes (m : SureHost σ) (settings : Settings) (company : Company) (blocks : List Block)
    (s : σ) : List (Text × Status) :=
  (run m.host (applyBlocks settings company blocks) s).1.results.map fun r => (r.path, r.status)

theorem outcomes_of_blockwise {P : σ → Block → List (Exchange Reply) → BlockResult → Prop}
    {blocks : List Block} {xs : List (Exchange Reply)} {results : List BlockResult}
    (hconfirms : company.confirms = false)
    (h : Blockwise m.host settings company P s blocks xs results t) :
    results.map (fun r => (r.path, r.status)) =
      if settings.dryRun then blocks.map (m.outcomeAmong settings.saveFolder (m.paths s))
      else m.outcomesFrom settings.saveFolder (m.paths s) blocks := by
  induction h with
  | nil s => simp [outcomesFrom]
  | @cons s t u block blocks xs ys result results hrun hblock hrest ih =>
    have houtcome := outcome_of_goes hconfirms (m.goes_of_run hrun)
    have hpaths := paths_of_run hconfirms hrun
    rw [List.map_cons, ih, houtcome, hpaths]
    split
    · rfl
    · rfl

theorem outcomes_eq (hconfirms : company.confirms = false) (blocks : List Block) (s : σ) :
    outcomes m settings company blocks s =
      if settings.dryRun then blocks.map (m.outcomeAmong settings.saveFolder (m.paths s))
      else m.outcomesFrom settings.saveFolder (m.paths s) blocks := by
  have hall : ∀ s t block xs result,
      run m.host (applyBlock settings company block) s = (result, t, xs) → True :=
    fun _ _ _ _ _ _ => trivial
  obtain ⟨xs, shown, t, -, hblocks, -⟩ := blockwise_of_applyBlocks hall s blocks
  exact outcomes_of_blockwise hconfirms hblocks

end SureHost

namespace Rehearsal

/-- The calls to the workspace of a rehearsal never fail. -/
structure IsSure (r : Rehearsal) : Prop where
  full : r.kind = .full
  unfailing : r.failures = []
  nodup : (r.files.map (·.1)).Nodup

variable {r : Rehearsal}

theorem not_lt_iff_le (a b : Text) : (!decide (b < a)) = true ↔ a ≤ b := by
  rw [Bool.not_eq_true', decide_eq_false_iff_not]
  exact @not_lt (List Char) _ b a

theorem filesNamed_eq_sort (hnodup : (r.files.map (·.1)).Nodup) (name : Text) :
    r.filesNamed name =
      ((r.files.map (·.1)).toFinset.filter (Path.basename · = name)).sort := by
  -- both lists are in order, without repetition and of the same paths
  obtain ⟨found, hfound⟩ : ∃ l, l = (r.files.map (·.1)).filter (Path.basename · = name) :=
    ⟨_, rfl⟩
  have hperm : (r.filesNamed name).Perm found := by
    rw [hfound]
    exact List.mergeSort_perm _ _
  have hset : (r.filesNamed name).toFinset =
      (r.files.map (·.1)).toFinset.filter (Path.basename · = name) := by
    rw [List.toFinset_eq_of_perm _ _ hperm, hfound, List.toFinset_filter]
    simp
  have hsorted : (r.filesNamed name).Pairwise (· ≤ ·) := by
    refine (List.pairwise_mergeSort ?_ ?_ _).imp fun {a b} => (not_lt_iff_le a b).mp
    · intro a b c hab hbc
      rw [not_lt_iff_le] at *
      exact hab.trans hbc
    · intro a b
      rw [Bool.or_eq_true, not_lt_iff_le, not_lt_iff_le]
      exact le_total a b
  have hdistinct : (r.filesNamed name).Nodup := by
    rw [hperm.nodup_iff, hfound]
    exact hnodup.filter _
  rw [← hset]
  exact ((List.toFinset_sort _ hdistinct).mpr hsorted).symm

theorem nodup_put (hnodup : (r.files.map (·.1)).Nodup) (path content : Text) :
    ((r.put path content).files.map (·.1)).Nodup := by
  rw [put, List.map_cons, List.nodup_cons]
  refine ⟨by simp, ?_⟩
  exact hnodup.sublist (List.filter_sublist.map _)

theorem IsSure.host (hr : r.IsSure) (q : Request) : (Rehearsal.host q r).2.IsSure := by
  cases q with
  | writeText path content =>
    simp only [Rehearsal.host]
    split
    · exact ⟨hr.full, hr.unfailing, nodup_put hr.nodup path content⟩
    · exact hr
  | confirm => exact ⟨hr.full, hr.unfailing, hr.nodup⟩
  | backup => exact ⟨hr.full, hr.unfailing, hr.nodup⟩
  | record => exact ⟨hr.full, hr.unfailing, hr.nodup⟩
  | _ => exact hr

theorem IsSure.call {α : Type} (hr : r.IsSure) (c : WorkspaceCall) (path : Text)
    (reply : Except Fault α) : r.call c path reply = reply := by
  simp [Rehearsal.call, hr.full, hr.unfailing]

theorem mem_files_iff (path : Text) :
    path ∈ (r.files.map (·.1)).toFinset ↔ (r.content? path).isSome = true := by
  rw [List.mem_toFinset, content?]
  induction r.files with
  | nil => simp
  | cons file files ih =>
    rw [List.map_cons, List.mem_cons, List.lookup_cons, ih]
    cases hfile : path == file.1 with
    | true => simp [eq_of_beq hfile]
    | false =>
      have hne : path ≠ file.1 := by simpa using hfile
      simp [hne]

/-- Rehearsals without failures are workspaces that never fail. -/
def sure : SureHost {r : Rehearsal // r.IsSure} where
  host q r := ((Rehearsal.host q r.1).1, ⟨(Rehearsal.host q r.1).2, r.2.host q⟩)
  content? r := r.1.content?
  exists_of_ok r := inMemory.exists_of_ok r.1
  content_of_ok r := inMemory.content_of_ok r.1
  write_ok r := inMemory.write_ok r.1
  write_error r := inMemory.write_error r.1
  keeps r := inMemory.keeps r.1
  paths r := (r.1.files.map (·.1)).toFinset
  finds paths name := (paths.filter (Path.basename · = name)).sort
  mem_paths r := mem_files_iff
  exists_reply r path := r.2.call _ _ _
  read_reply := by
    intro r path hpath
    obtain ⟨text, htext⟩ := Option.isSome_iff_exists.mp ((mem_files_iff path).mp hpath)
    refine ⟨text, (r.2.call _ _ _).trans ?_⟩
    rw [htext]
    rfl
  write_reply := by
    intro r path text
    simp only [Rehearsal.host, r.2.call]
  folder_reply r path := r.2.call _ _ _
  find_reply := by
    intro r name
    simp only [Rehearsal.host, callWithDefault, r.2.full, r.2.call, if_true,
      filesNamed_eq_sort r.2.nodup]

end Rehearsal

/-- Where nothing fails and nobody is asked, a dry run tells of every block the path and the status
that the block really comes to, if and only if no block is disturbed by the files that those in
front of it are foretold to write: with them its hint stands for the same path as at the start, and
this path has a file only if it had one at the start. -/
theorem forecast_eq_iff {σ : Type} (m : SureHost σ) (s : σ) (settings : Settings)
    {company : Company} (blocks : List Block) (hconfirms : company.confirms = false) :
    m.outcomes { settings with dryRun := true } company blocks s =
        m.outcomes { settings with dryRun := false } company blocks s ↔
      ∀ front block behind, blocks = front ++ block :: behind →
        let folder := settings.saveFolder
        let standing := m.paths s ∪ m.foretoldPaths folder (m.paths s) front
        let target := m.targetAmong folder (m.paths s) block.path
        m.targetAmong folder standing block.path = target ∧
          (target ∈ standing → target ∈ m.paths s) := by
  rw [SureHost.outcomes_eq hconfirms, SureHost.outcomes_eq hconfirms, if_pos rfl, if_neg (by simp),
    SureHost.map_outcomeAmong_eq_iff]
  refine forall_congr' fun front => forall_congr' fun block => forall_congr' fun behind =>
    imp_congr_right fun _ => ?_
  exact m.outcomeAmong_eq_iff Finset.subset_union_left block

/-- A file is found by its name in both runs, and a new one stands in nobody's way. -/
theorem forecast_eq_of_rehearsal :
    let company : Company := { backups := true, records := true, views := true }
    let rehearsal : Rehearsal := { files := [("src/a.js", "1")], now := ⟨2024, 1, 2, 3, 4, 5, 6⟩ }
    let start : {r : Rehearsal // r.IsSure} := ⟨rehearsal, rfl, rfl, by decide⟩
    let blocks : List Block := [⟨"a.js", [], "2"⟩, ⟨"b.js", [], "3"⟩]
    company.confirms = false ∧
      Rehearsal.sure.outcomes { dryRun := true } company blocks start =
        Rehearsal.sure.outcomes { dryRun := false } company blocks start ∧
      Rehearsal.sure.outcomes { dryRun := true } company blocks start =
        [("src/a.js".toList, .updated), ("b.js".toList, .created)] ∧
      ∀ front block behind, blocks = front ++ block :: behind →
        let standing := Rehearsal.sure.paths start ∪
          Rehearsal.sure.foretoldPaths [] (Rehearsal.sure.paths start) front
        let target := Rehearsal.sure.targetAmong [] (Rehearsal.sure.paths start) block.path
        Rehearsal.sure.targetAmong [] standing block.path = target ∧
          (target ∈ standing → target ∈ Rehearsal.sure.paths start) := by
  intro company rehearsal start blocks
  have hequal : Rehearsal.sure.outcomes { dryRun := true } company blocks start =
      Rehearsal.sure.outcomes { dryRun := false } company blocks start := by decide +kernel
  refine ⟨rfl, hequal, by decide +kernel, ?_⟩
  exact (forecast_eq_iff Rehearsal.sure start {} blocks rfl).mp hequal

/-- A file that two blocks are for is created by the first and changed by the second, but a dry run
tells of both that they would create it. -/
theorem not_forecast_eq :
    ¬ ∀ (σ : Type) (m : SureHost σ) (s : σ) (settings : Settings) (company : Company)
      (blocks : List Block), company.confirms = false →
      m.outcomes { settings with dryRun := true } company blocks s =
        m.outcomes { settings with dryRun := false } company blocks s := by
  intro h
  have hequal := h _ Rehearsal.sure
    ⟨{ now := ⟨2024, 1, 2, 3, 4, 5, 6⟩ }, rfl, rfl, by decide⟩ {} {}
    [⟨"new.txt", [], "a"⟩, ⟨"new.txt", [], "b"⟩] rfl
  exact absurd hequal (by decide +kernel)

end CodeGraft
