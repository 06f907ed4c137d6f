import CodeGraft.Proofs.Blockwise
import CodeGraft.Proofs.Truth

/-!
# What an entry of the history is worth

The history is a ledger of changes, but an entry goes into it before the file is written. So an entry
stands for a change exactly if the write behind it succeeds. A block whose write fails has failed, and
its entry remains.
-/

namespace CodeGraft

open Text Dialogue

/-- Exchanges in which a change is put into the history. -/
def Records (xs : List (Exchange Reply)) : Prop :=
  ∃ entry reply, (⟨.record entry, reply⟩ : Exchange Reply) ∈ xs

/-- Exchanges in which a file could not be written. -/
def WriteFails (xs : List (Exchange Reply)) : Prop :=
  ∃ path text e, (⟨.writeText path text, .error e⟩ : Exchange Reply) ∈ xs

/-- What becomes of a block that has an entry in the history. -/
structure Vouched (xs : List (Exchange Reply)) (result : BlockResult) : Prop where
  /-- The entry stands for a change that was made exactly if no write has failed. -/
  updated_iff : result.status = .updated ↔ ¬ WriteFails xs
  /-- Otherwise the block has failed. -/
  failed_iff : result.status = .failed ↔ WriteFails xs

section

variable {settings : Settings} {company : Company} {block : Block} {target : Text}
  {xs : List (Exchange Reply)} {result : BlockResult}

theorem not_records_of_quiet (h : Quiet xs) : ¬ Records xs := by
  rintro ⟨entry, reply, hmem⟩
  have := h _ hmem
  cases this

theorem writeFails_iff {front last : List (Exchange Reply)} {path text : Text}
    {reply : Except Fault Unit} (hfront : Unwritten front) (hlast : Unwritten last) :
    WriteFails (front ++ ⟨.writeText path text, reply⟩ :: last) ↔ ∃ e, reply = .error e := by
  constructor
  · rintro ⟨path', text', e, hmem⟩
    rcases List.mem_append.mp hmem with hmem | hmem
    · exact absurd rfl (hfront _ hmem path' text')
    rcases List.mem_cons.mp hmem with heq | hmem
    · simp only [Sigma.mk.injEq, Request.writeText.injEq] at heq
      obtain ⟨⟨rfl, rfl⟩, hreply⟩ := heq
      exact ⟨e, (eq_of_heq hreply).symm⟩
    · exact absurd rfl (hlast _ hmem path' text')
  · rintro ⟨e, rfl⟩
    exact ⟨path, text, e, by simp⟩

theorem vouched_of_write {front last : List (Exchange Reply)} {path text : Text}
    {reply : Except Fault Unit} (hfront : Unwritten front) (hlast : Unwritten last)
    (hstatus : result.status = savedAs .updated reply) :
    Vouched (front ++ ⟨.writeText path text, reply⟩ :: last) result := by
  have hfails : WriteFails (front ++ ⟨.writeText path text, reply⟩ :: last) ↔ _ :=
    writeFails_iff hfront hlast
  cases reply with
  | ok => exact ⟨by simp [hfails, hstatus, savedAs], by simp [hfails, hstatus, savedAs]⟩
  | error e => exact ⟨by simp [hfails, hstatus, savedAs], by simp [hfails, hstatus, savedAs]⟩

theorem vouched_of_course (h : Course settings company block xs result)
    (hrecords : Records xs) : Vouched xs result := by
  cases h with
  | unresolved hseek hlast =>
    have hquiet := (quiet_of_resolveTarget hseek).append hlast.quiet
    exact absurd hrecords (not_records_of_quiet hquiet)
  | @resolved seek ys target _ hseek hvisit =>
    have hseek := quiet_of_resolveTarget hseek
    cases hvisit with
    | idle _ hquiet => exact absurd hrecords (not_records_of_quiet (hseek.append hquiet))
    | @creates asked folder last _ reply _ _ hasked hfolder hlast =>
      -- a new file has no old content, so nothing is recorded for it
      obtain ⟨entry, reply', hmem⟩ := hrecords
      have hquiet : Quiet (seek ++ ⟨.fileExists target, .ok false⟩ ::
          (asked ++ (folder ++ last))) := by
        refine hseek.append (.cons rfl (hasked.quiet.append (Quiet.append ?_ hlast.quiet)))
        rcases hfolder with rfl | rfl
        · exact .nil
        · exact .cons rfl .nil
      refine absurd ⟨entry, reply', ?_⟩ (not_records_of_quiet hquiet)
      simpa using hmem
    | @updates existing revision told asked keeping last _ reply _ _ _ htold hasked hkeeping hlast
        hstatus =>
      have hquiet : Quiet (⟨.fileExists target, .ok true⟩ :: ⟨.readText target, .ok existing⟩ ::
          (told ++ asked)) := .cons rfl (.cons rfl (htold.telling.quiet.append hasked.quiet))
      have hfront := hseek.unwritten.append (hquiet.unwritten.append hkeeping.unwritten)
      simpa using vouched_of_write hfront hlast.quiet.unwritten hstatus

end

/-- With any host, each entry of the history that a batch records belongs to a block that is updated
if its write succeeds, and has failed if not. -/
theorem applyBlocks_vouched {σ : Type} (host : Host Reply σ) (s : σ) (settings : Settings)
    (company : Company) (blocks : List Block) :
    ∃ xs shown t, (run host (applyBlocks settings company blocks) s).2.2 = xs ++ shown ∧
      Blockwise host settings company (fun _ _ xs result => Records xs → Vouched xs result)
        s blocks xs (run host (applyBlocks settings company blocks) s).1.results t ∧
      Showing shown := by
  refine blockwise_of_applyBlocks (fun s t block xs result hrun => ?_) s blocks
  exact vouched_of_course (course_of_applyBlock (run_eq_iff.mp hrun).1)

/-- A file that cannot be written keeps its old content, and yet its change is in the history. -/
theorem applyBlocks_records_unwritten :
    let company : Company := { backups := true, records := true }
    let rehearsal : Rehearsal :=
      { files := [("a.js", "1")], backups := .replies [.ok (some "ref".toList)],
        failures := [((.writeText, "a.js"), .reported .forbidden "no")],
        now := ⟨2024, 1, 2, 3, 4, 5, 6⟩ }
    let batch := run Rehearsal.host (applyBlocks {} company [⟨"a.js", [], "2"⟩]) rehearsal
    batch.1.results.map (·.status) = [.failed] ∧
      batch.2.1.content? "a.js".toList = some "1".toList ∧
      (batch.2.2.any fun
        | ⟨.record ⟨.text path, _, _, _⟩, .ok true⟩ => path = "/ws/a.js".toList
        | _ => false) = true := by
  decide +kernel

end CodeGraft
