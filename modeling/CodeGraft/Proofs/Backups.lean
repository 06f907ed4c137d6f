import CodeGraft.Apply.Rehearsal
import CodeGraft.Proofs.Courses
import Mathlib.Data.List.Forall2

/-!
# Backups before writes

Where backups are wanted and there is a store for them, a block that writes to a file that exists
tries once to back up what it has read from it, before it writes. The change is recorded only if the
store has given a reference, and neither the backup nor the record has a say in what is written. A
block that makes a new file, or writes nothing, backs up nothing.
-/

namespace CodeGraft

open Text Dialogue

def Unchecked (xs : List (Exchange Reply)) : Prop := ∀ x ∈ xs, ∀ path, x.1 ≠ .fileExists path

inductive BacksUp (settings : Settings) (company : Company) (block : Block) :
    List (Exchange Reply) → Prop
  /-- Nothing is written, backed up or recorded. -/
  | nothing {xs : List (Exchange Reply)} (hquiet : Quiet xs) : BacksUp settings company block xs
  /-- A file is made that was not there when it was last asked for. -/
  | creates {seek asked behind : List (Exchange Reply)} {target : Text} (reply : Except Fault Unit)
      (hseek : (resolveTarget settings block.path).run.Plays seek (.ok target))
      (hquiet : Quiet (seek ++ asked)) (hasked : Unchecked asked)
      (hbehind : Quiet behind) :
      BacksUp settings company block
        (seek ++ ⟨.fileExists target, .ok false⟩ ::
          (asked ++ ⟨.writeText target block.code, reply⟩ :: behind))
  /-- A file that exists is written behind one attempt to back it up. What is written depends on
  what was read alone. -/
  | updates {seek asked attempt recording behind : List (Exchange Reply)}
      {target existing : Text} {revision : Revision} {kept : Option (Text × Text)}
      (reply : Except Fault Unit)
      (hseek : (resolveTarget settings block.path).run.Plays seek (.ok target))
      (hquiet : Quiet (seek ++ asked)) (hasked : Unchecked asked)
      (hrevise : revise settings block.code existing = .ok revision)
      (hattempt : BackupAttempt company target existing attempt kept)
      (hrecording : Recording company revision.how kept recording) (hbehind : Quiet behind) :
      BacksUp settings company block
        (seek ++ ⟨.fileExists target, .ok true⟩ :: ⟨.readText target, .ok existing⟩ ::
          (asked ++ (attempt ++ (recording ++
            ⟨.writeText target revision.content, reply⟩ :: behind))))

section

variable {settings : Settings} {company : Company} {block : Block} {xs : List (Exchange Reply)}

theorem Unchecked.append {ys : List (Exchange Reply)} (hx : Unchecked xs) (hy : Unchecked ys) :
    Unchecked (xs ++ ys) := by
  intro x h
  exact (List.mem_append.mp h).elim (hx x) (hy x)

theorem Agreement.unchecked {needed : Bool} {question : Text × List Text}
    (h : Agreement needed question xs) : Unchecked xs := by
  cases h <;> simp [Unchecked]

theorem Telling.unchecked (h : Telling xs) : Unchecked xs := by
  intro x hx path heq
  have := h x hx
  rw [heq] at this
  cases this

theorem backsUp_of_course {result : BlockResult}
    (hkeeps : (settings.backups && company.backups) = true)
    (h : Course settings company block xs result) : BacksUp settings company block xs := by
  cases h with
  | unresolved hseek hlast => exact .nothing ((quiet_of_resolveTarget hseek).append hlast.quiet)
  | resolved hseek hvisit =>
    have hquiet := quiet_of_resolveTarget hseek
    cases hvisit with
    | idle _ hidle => exact .nothing (hquiet.append hidle)
    | @creates asked folder _ _ reply _ _ hasked hfolder hlast =>
      have hmade : Quiet folder ∧ Unchecked folder := by
        rcases hfolder with rfl | rfl
        · exact ⟨.nil, by simp [Unchecked]⟩
        · exact ⟨.cons rfl .nil, by simp [Unchecked]⟩
      simpa using BacksUp.creates reply hseek (hquiet.append (hasked.quiet.append hmade.1))
        (hasked.unchecked.append hmade.2) hlast.quiet
    | updates reply _ _ hrevise htold hasked hkeeping hlast =>
      cases hkeeping with
      | unasked hnever => simp [hkeeps] at hnever
      | attempted _ hattempt hrecording =>
        simpa using BacksUp.updates reply hseek
          (hquiet.append (htold.telling.quiet.append hasked.quiet))
          (htold.telling.unchecked.append hasked.unchecked) hrevise hattempt hrecording hlast.quiet

theorem forall₂_backsUp_of_courses {blocks : List Block} {results : List BlockResult}
    (hkeeps : (settings.backups && company.backups) = true)
    (h : Courses settings company blocks xs results) :
    ∃ traces : List (List (Exchange Reply)),
      xs = traces.flatten ∧ List.Forall₂ (BacksUp settings company) blocks traces := by
  induction h with
  | nil => exact ⟨[], rfl, .nil⟩
  | cons hcourse _ ih =>
    obtain ⟨traces, rfl, htraces⟩ := ih
    exact ⟨_ :: traces, rfl, .cons (backsUp_of_course hkeeps hcourse) htraces⟩

end

/-- With any host, the exchanges of a batch are those of its blocks, each of which backs up as it
should, and then those of the viewer. -/
theorem applyBlocks_backsUp {σ : Type} (host : Host Reply σ) (s : σ) {settings : Settings}
    {company : Company} (blocks : List Block) (hwanted : settings.backups = true)
    (hstore : company.backups = true) :
    ∃ traces viewing, (run host (applyBlocks settings company blocks) s).2.2 =
        traces.flatten ++ viewing ∧
      List.Forall₂ (BacksUp settings company) blocks traces ∧ Quiet viewing := by
  have hplays := (run_eq_iff.mp (rfl : run host (applyBlocks settings company blocks) s = _)).1
  obtain ⟨ys, viewing, hxs, hcourses, hviewing⟩ := courses_of_applyBlocks hplays
  obtain ⟨traces, rfl, htraces⟩ :=
    forall₂_backsUp_of_courses (by rw [hwanted, hstore]; rfl) hcourses
  exact ⟨traces, viewing, hxs, htraces, hviewing⟩

/-- The old content of a file goes to the store under the file's absolute path. -/
theorem applyBlocks_backsUp_of_file :
    let company : Company := { backups := true, records := true }
    let rehearsal : Rehearsal :=
      { files := [("a.js", "1")], backups := .replies [.ok (some "ref".toList)],
        now := ⟨2024, 1, 2, 3, 4, 5, 6⟩ }
    let exchanges := (run Rehearsal.host (applyBlocks {} company [⟨"a.js", [], "2"⟩]) rehearsal).2.2
    ({} : Settings).backups = true ∧ company.backups = true ∧
      (∃ traces viewing, exchanges = traces.flatten ++ viewing ∧
        List.Forall₂ (BacksUp {} company) [⟨"a.js", [], "2"⟩] traces ∧ Quiet viewing) ∧
      (exchanges.any fun
        | ⟨.backup path content, _⟩ => path = "/ws/a.js".toList ∧ content = "1".toList
        | _ => false) = true :=
  ⟨rfl, rfl, applyBlocks_backsUp _ _ _ rfl rfl, by decide +kernel⟩

end CodeGraft
