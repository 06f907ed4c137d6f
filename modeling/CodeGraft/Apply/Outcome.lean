import CodeGraft.Text.Basic

/-!
# Outcomes

Every code block of a batch has a result, and the summary of a batch (`ApplySummary`) counts them.
-/

namespace CodeGraft

/-- What became of a code block (`ApplyStatus`). -/
inductive Status where
  | created
  | updated
  | skipped
  | failed
  deriving DecidableEq, Repr

namespace Status

def name : Status → Text
  | created => "created"
  | updated => "updated"
  | skipped => "skipped"
  | failed => "failed"

def ofName? (word : Text) : Option Status :=
  [created, updated, skipped, failed].find? (·.name = word)

/-- Whether a block has changed a file, or would have. -/
def isSuccess : Status → Bool
  | created => true
  | updated => true
  | skipped => false
  | failed => false

theorem isSuccess_partition (s : Status) :
    (if s.isSuccess then 1 else 0) + (if s = skipped then 1 else 0) +
      (if s = failed then 1 else 0) = 1 := by
  cases s <;> rfl

end Status

structure BlockResult where
  path : Text
  status : Status
  detail : Text := []
  deriving DecidableEq

structure Summary where
  results : List BlockResult := []
  /-- The paths that the viewer has opened. -/
  opened : List Text := []
  nothingToApply : Bool := false
  dryRun : Bool := false
  deriving DecidableEq

namespace Summary

def successCount (s : Summary) : Nat := s.results.countP (·.status.isSuccess)

def skipped (s : Summary) : List BlockResult := s.results.filter (·.status = .skipped)

def failed (s : Summary) : List BlockResult := s.results.filter (·.status = .failed)

def resultFor? (s : Summary) (path : Text) : Option BlockResult :=
  s.results.reverse.find? (·.path = path)

theorem length_results (s : Summary) :
    s.successCount + s.skipped.length + s.failed.length = s.results.length := by
  simp only [successCount, skipped, failed, ← List.countP_eq_length_filter]
  induction s.results with
  | nil => rfl
  | cons r rs ih =>
    have := r.status.isSuccess_partition
    simp only [List.countP_cons, List.length_cons, decide_eq_true_eq]
    omega

/-- The report of a batch: a line on its success, then the reasons of what was skipped and what
failed. -/
def message (s : Summary) : Text :=
  if s.nothingToApply then "Nothing to apply: no code blocks with file paths were found."
  else
    let lead : Text := if s.dryRun then "DRY RUN: " else []
    let count := lead ++ Text.glue [.ofNat s.successCount, " file(s) created/updated successfully."]
    Text.unlines (count ::
      (s.skipped.map (fun r => .glue ["  skipped ", r.path, ": ", r.detail]) ++
        s.failed.map (fun r => .glue ["  failed ", r.path, ": ", r.detail])))

end Summary

end CodeGraft
