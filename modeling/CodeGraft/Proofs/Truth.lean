import CodeGraft.Apply.Rehearsal
import CodeGraft.Proofs.Courses
import Mathlib.Logic.Function.Basic

/-!
# Results that tell the truth

A batch runs against a workspace in memory whose calls may fail at any time, and company of any
behaviour. It ends with a result for every block, in their order, and the status of a block tells
what has become of the files: a block that failed or was skipped has changed none, and one that
succeeded has changed its target alone, to what the block says.
-/

namespace CodeGraft

open Text Dialogue

/-- A host whose workspace is kept in memory. A call that fails has no effect, and what does not fail
is answered by the files; only writing changes them. The rest of the company is free. -/
structure MemoryHost (σ : Type) where
  host : Host Reply σ
  /-- The content of a file. -/
  content? : σ → Text → Option Text
  exists_of_ok : ∀ s path found, (host (.fileExists path) s).1 = .ok found →
    found = (content? s path).isSome
  content_of_ok : ∀ s path text, (host (.readText path) s).1 = .ok text →
    content? s path = some text
  write_ok : ∀ s path text, (host (.writeText path text) s).1 = .ok () →
    content? (host (.writeText path text) s).2 =
      Function.update (content? s) path (some text)
  write_error : ∀ s path text e, (host (.writeText path text) s).1 = .error e →
    content? (host (.writeText path text) s).2 = content? s
  keeps : ∀ s q, (∀ path text, q ≠ .writeText path text) → content? (host q s).2 = content? s

def Rehearsal.inMemory : MemoryHost Rehearsal where
  host := Rehearsal.host
  content? := Rehearsal.content?
  exists_of_ok := by
    intro r path found h
    simp only [host, call] at h
    split at h
    · cases h
    · split at h
      · cases h
      · cases h
        rfl
  content_of_ok := by
    intro r path text h
    simp only [host, call] at h
    split at h
    · cases h
    · split at h
      · cases h
      · cases hcontent : r.content? path with
        | none => simp [hcontent] at h
        | some content => simpa [hcontent] using h
  write_ok := by
    intro r path text h
    simp only [host] at h ⊢
    split at h
    next hok =>
      simp only
      funext other
      by_cases hother : other = path
      · subst hother
        rw [content?_put_self, Function.update_self]
      · rw [content?_put_of_ne r text hother, Function.update_of_ne hother]
    next => cases h
  write_error := by
    intro r path text e h
    simp only [host] at h ⊢
    split at h
    · cases h
    · simp only
  keeps := by
    intro r q hq
    cases q with
    | writeText path text => exact absurd rfl (hq path text)
    | _ => rfl

abbrev Files : Type := Text → Option Text

/-- The status of a block's result tells what has become of the files. Nothing is written where the
settings say so. -/
def BlockResult.IsTrue (settings : Settings) (block : Block) (before after : Files)
    (result : BlockResult) : Prop :=
  match result.status with
  | .failed => after = before
  | .skipped => after = before
  | .created =>
    if settings.dryRun then after = before
    else before result.path = none ∧
      after = Function.update before result.path (some block.code)
  | .updated =>
    if settings.dryRun then after = before
    else ∃ existing revision, before result.path = some existing ∧
      revise settings block.code existing = .ok revision ∧
      after = Function.update before result.path (some revision.content)

/-- The path of a block's result is the target that was found for it; a block without a target has
failed, and goes by its hint. -/
def BlockResult.IsAt (target : Except Fault Text) (block : Block) (result : BlockResult) : Prop :=
  match target with
  | .ok path => result.path = path
  | .error _ => result.path = block.path ∧ result.status = .failed

variable {σ : Type}

/-- The results of blocks, one for each, tell the truth of a run that goes from one state of a
memory to another, every block acting on the state that those before it have left. -/
inductive Truthful (m : MemoryHost σ) (settings : Settings) :
    σ → List Block → List BlockResult → σ → Prop
  | nil (s : σ) : Truthful m settings s [] [] s
  | cons {s t u : σ} {block : Block} {blocks : List Block} {result : BlockResult}
      {results : List BlockResult}
      (hat : result.IsAt (run m.host (resolveTarget settings block.path).run s).1 block)
      (htrue : result.IsTrue settings block (m.content? s) (m.content? t))
      (hrest : Truthful m settings t blocks results u) :
      Truthful m settings s (block :: blocks) (result :: results) u

/-! ### Exchanges and files -/

def Unwritten (xs : List (Exchange Reply)) : Prop :=
  ∀ x ∈ xs, ∀ path text, x.1 ≠ .writeText path text

variable {settings : Settings} {company : Company} {block : Block} {xs ys : List (Exchange Reply)}

theorem Unwritten.append (hx : Unwritten xs) (hy : Unwritten ys) : Unwritten (xs ++ ys) := by
  intro x h
  exact (List.mem_append.mp h).elim (hx x) (hy x)

theorem Quiet.unwritten (h : Quiet xs) : Unwritten xs := by
  intro x hx path text heq
  have := h x hx
  rw [heq] at this
  cases this

theorem Keeping.unwritten {target existing how : Text}
    (h : Keeping settings company target existing how xs) : Unwritten xs := by
  intro x hx path text heq
  have := h.within x hx
  rw [heq] at this
  cases this

namespace MemoryHost

variable (m : MemoryHost σ) {s t : σ}

theorem content_eq_of_unwritten (hxs : Unwritten xs) (h : Answers m.host s xs t) :
    m.content? t = m.content? s :=
  h.keeps fun x hx u => m.keeps u x.1 (hxs x hx)

theorem content_of_write {front last : List (Exchange Reply)} {path text : Text}
    {reply : Except Fault Unit} (hfront : Unwritten front) (hlast : Unwritten last)
    (h : Answers m.host s (front ++ ⟨.writeText path text, reply⟩ :: last) t) :
    m.content? t =
      match reply with
      | .ok () => Function.update (m.content? s) path (some text)
      | .error _ => m.content? s := by
  obtain ⟨u, hbefore, hreply, hbehind⟩ := answers_append.mp h
  rw [m.content_eq_of_unwritten hlast hbehind, ← m.content_eq_of_unwritten hfront hbefore]
  cases reply with
  | ok => exact m.write_ok u path text hreply
  | error e => exact m.write_error u path text e hreply

/-- A visit that writes nothing leaves all files as they are, and no result claims more. -/
theorem isTrue_of_unwritten {result : BlockResult} (hxs : Unwritten xs)
    (hdry : result.status.isSuccess = true → settings.dryRun = true)
    (h : Answers m.host s xs t) : result.IsTrue settings block (m.content? s) (m.content? t) := by
  have hsame := m.content_eq_of_unwritten hxs h
  unfold BlockResult.IsTrue
  cases hstatus : result.status with
  | failed => exact hsame
  | skipped => exact hsame
  | created => simpa [hdry (by simp [hstatus, Status.isSuccess])] using hsame
  | updated => simpa [hdry (by simp [hstatus, Status.isSuccess])] using hsame

theorem isTrue_of_visit {target : Text} {result : BlockResult}
    (hvisit : Visit settings company block target xs result) (h : Answers m.host s xs t) :
    result.path = target ∧ result.IsTrue settings block (m.content? s) (m.content? t) := by
  cases hvisit with
  | idle hpath hquiet hdry => exact ⟨hpath, m.isTrue_of_unwritten hquiet.unwritten hdry h⟩
  | @creates asked folder last _ reply hpath hdry hasked hfolder hlast hstatus =>
    have hquiet : Quiet (⟨.fileExists target, .ok false⟩ :: (asked ++ folder)) := by
      refine .cons rfl (hasked.quiet.append ?_)
      rcases hfolder with rfl | rfl
      · exact .nil
      · exact .cons rfl .nil
    have hnew : m.content? s target = none := by
      have := m.exists_of_ok s target false h.1
      simpa using this.symm
    have hwrite := m.content_of_write hquiet.unwritten hlast.quiet.unwritten (by simpa using h)
    refine ⟨hpath, ?_⟩
    cases reply with
    | ok => simpa [BlockResult.IsTrue, hstatus, savedAs, hdry, hpath, hnew] using hwrite
    | error e => simpa [BlockResult.IsTrue, hstatus, savedAs] using hwrite
  | @updates existing revision told asked keeping last _ reply hpath hdry hrevise htold hasked
      hkeeping hlast hstatus =>
    have hfront : Unwritten (⟨.fileExists target, .ok true⟩ :: ⟨.readText target, .ok existing⟩ ::
        (told ++ (asked ++ keeping))) := by
      have hquiet : Quiet (⟨.fileExists target, .ok true⟩ :: ⟨.readText target, .ok existing⟩ ::
          (told ++ asked)) := .cons rfl (.cons rfl (htold.telling.quiet.append hasked.quiet))
      simpa using hquiet.unwritten.append hkeeping.unwritten
    have hold : m.content? s target = some existing := by
      have hread := m.content_of_ok _ target existing h.2.1
      rwa [m.keeps s (.fileExists target) (by simp)] at hread
    have hwrite := m.content_of_write hfront hlast.quiet.unwritten (by simpa using h)
    refine ⟨hpath, ?_⟩
    cases reply with
    | ok =>
      simpa [BlockResult.IsTrue, hstatus, savedAs, hdry, hpath, hold, hrevise] using hwrite
    | error e => simpa [BlockResult.IsTrue, hstatus, savedAs] using hwrite

theorem isTrue_of_course {result : BlockResult}
    (hcourse : Course settings company block xs result) (h : Answers m.host s xs t) :
    result.IsAt (run m.host (resolveTarget settings block.path).run s).1 block ∧
      result.IsTrue settings block (m.content? s) (m.content? t) := by
  cases hcourse with
  | unresolved hseek hlast hpath hstatus =>
    obtain ⟨u, hbefore, hbehind⟩ := answers_append.mp h
    have hquiet := (quiet_of_resolveTarget hseek).append hlast.quiet
    rw [run_eq_iff.mpr ⟨hseek, hbefore⟩]
    exact ⟨⟨hpath, hstatus⟩,
      m.isTrue_of_unwritten hquiet.unwritten (by simp [hstatus, Status.isSuccess]) h⟩
  | resolved hseek hvisit =>
    obtain ⟨u, hbefore, hbehind⟩ := answers_append.mp h
    -- finding the target changes nothing, so the visit starts with the files of the block
    have hsame := m.content_eq_of_unwritten (quiet_of_resolveTarget hseek).unwritten hbefore
    have hvisited := m.isTrue_of_visit hvisit hbehind
    rw [run_eq_iff.mpr ⟨hseek, hbefore⟩, ← hsame]
    exact hvisited

theorem truthful_of_courses {blocks : List Block} {results : List BlockResult}
    (hcourses : Courses settings company blocks xs results) (h : Answers m.host s xs t) :
    Truthful m settings s blocks results t := by
  induction hcourses generalizing s with
  | nil =>
    obtain rfl : s = t := h
    exact .nil s
  | cons hcourse _ ih =>
    obtain ⟨u, hfirst, hothers⟩ := answers_append.mp h
    obtain ⟨hat, htrue⟩ := m.isTrue_of_course hcourse hfirst
    exact .cons hat htrue (ih hothers)

end MemoryHost

theorem Truthful.length_eq {m : MemoryHost σ} {s t : σ} {blocks : List Block}
    {results : List BlockResult} (h : Truthful m settings s blocks results t) :
    results.length = blocks.length := by
  induction h with
  | nil => rfl
  | cons _ _ _ ih => simp [ih]

/-- A batch against a workspace in memory always ends with a summary. It holds one result for each
block, in their order; the results tell the truth; and the files in the end are those that the last
block has left. -/
theorem applyBlocks_truthful (m : MemoryHost σ) (s : σ) (settings : Settings) (company : Company)
    (blocks : List Block) :
    ∃ t, (run m.host (applyBlocks settings company blocks) s).1.results.length = blocks.length ∧
      Truthful m settings s blocks (run m.host (applyBlocks settings company blocks) s).1.results t ∧
      m.content? (run m.host (applyBlocks settings company blocks) s).2.1 = m.content? t := by
  obtain ⟨hplays, hanswers⟩ :=
    run_eq_iff.mp (rfl : run m.host (applyBlocks settings company blocks) s = _)
  obtain ⟨ys, viewing, hxs, hcourses, hviewing⟩ := courses_of_applyBlocks hplays
  rw [hxs] at hanswers
  obtain ⟨t, hblocks, hviewed⟩ := answers_append.mp hanswers
  have htruthful := m.truthful_of_courses hcourses hblocks
  exact ⟨t, htruthful.length_eq, htruthful,
    m.content_eq_of_unwritten hviewing.unwritten hviewed⟩

/-- A block that cannot be written fails, and the one in front of it has its effect. -/
theorem applyBlocks_truthful_of_rehearsal :
    let rehearsal : Rehearsal :=
      { files := [("a.js", "1")], now := ⟨2024, 1, 2, 3, 4, 5, 6⟩,
        failures := [((.writeText, "b.js"), .reported .forbidden "no")] }
    let blocks : List Block := [⟨"a.js", [], "2"⟩, ⟨"b.js", [], "3"⟩]
    let batch := run Rehearsal.inMemory.host (applyBlocks {} {} blocks) rehearsal
    (∃ t, batch.1.results.length = blocks.length ∧
      Truthful Rehearsal.inMemory {} rehearsal blocks batch.1.results t ∧
      Rehearsal.inMemory.content? batch.2.1 = Rehearsal.inMemory.content? t) ∧
    batch.1.results.map (·.status) = [.updated, .failed] :=
  ⟨applyBlocks_truthful _ _ _ _ _, by decide +kernel⟩

end CodeGraft
