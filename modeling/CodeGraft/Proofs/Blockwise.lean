import CodeGraft.Proofs.Courses

/-!
# Batches, block by block

A batch is run as its blocks are run, each from the state that those before it have left. A law about
what every block does is therefore proved of one block, and then holds block by block.
-/

namespace CodeGraft

open Dialogue Session

variable {σ : Type} {host : Host Reply σ} {settings : Settings} {company : Company}
  {P : σ → Block → List (Exchange Reply) → BlockResult → Prop}

/-- The exchanges and the results of a run of blocks from one state to another, where `P` holds of
every block: of the state it starts from, its exchanges and its result. -/
inductive Blockwise (host : Host Reply σ) (settings : Settings) (company : Company)
    (P : σ → Block → List (Exchange Reply) → BlockResult → Prop) :
    σ → List Block → List (Exchange Reply) → List BlockResult → σ → Prop
  | nil (s : σ) : Blockwise host settings company P s [] [] [] s
  | cons {s t u : σ} {block : Block} {blocks : List Block} {xs ys : List (Exchange Reply)}
      {result : BlockResult} {results : List BlockResult}
      (hrun : run host (applyBlock settings company block) s = (result, t, xs))
      (hblock : P s block xs result)
      (hrest : Blockwise host settings company P t blocks ys results u) :
      Blockwise host settings company P s (block :: blocks) (xs ++ ys) (result :: results) u

theorem Blockwise.invariant {I : σ → Prop}
    (hI : ∀ s t block xs result,
      run host (applyBlock settings company block) s = (result, t, xs) → I s → I t)
    {s t : σ} {blocks : List Block} {xs : List (Exchange Reply)} {results : List BlockResult}
    (h : Blockwise host settings company P s blocks xs results t) (hs : I s) :
    Blockwise host settings company (fun s block xs result => I s ∧ P s block xs result)
      s blocks xs results t ∧ I t := by
  induction h with
  | nil s => exact ⟨.nil s, hs⟩
  | cons hrun hblock _ ih =>
    obtain ⟨hrest, ht⟩ := ih (hI _ _ _ _ _ hrun hs)
    exact ⟨.cons hrun ⟨hs, hblock⟩ hrest, ht⟩

theorem blockwise_of_applyEach
    (hP : ∀ s t block xs result,
      run host (applyBlock settings company block) s = (result, t, xs) → P s block xs result)
    (s : σ) (blocks : List Block) :
    Blockwise host settings company P s blocks (run host (applyEach settings company blocks) s).2.2
      (run host (applyEach settings company blocks) s).1
      (run host (applyEach settings company blocks) s).2.1 := by
  induction blocks generalizing s with
  | nil => exact .nil s
  | cons block blocks ih =>
    rcases hrun : run host (applyBlock settings company block) s with ⟨result, t, xs⟩
    have hrest := ih t
    have hall : run host (applyEach settings company (block :: blocks)) s =
        (result :: (run host (applyEach settings company blocks) t).1,
          (run host (applyEach settings company blocks) t).2.1,
          xs ++ (run host (applyEach settings company blocks) t).2.2) := by
      simp only [applyEach, bind_eq, pure_eq, run_bind, hrun, run_done, List.append_nil]
    rw [hall]
    exact .cons hrun (hP s t block xs result hrun) hrest

theorem run_applyBlocks {blocks : List Block} {results : List BlockResult} {s t : σ}
    {xs : List (Exchange Reply)}
    (heach : run host (applyEach settings company blocks) s = (results, t, xs)) :
    run host (applyBlocks settings company blocks) s =
      let (opened, u, shown) :=
        run host (openWritten settings company (writtenPaths settings results)) t
      ({ results, opened, dryRun := settings.dryRun }, u, xs ++ shown) := by
  simp only [applyBlocks, bind_eq, pure_eq, run_bind, heach, run_done, List.append_nil]

theorem blockwise_of_applyBlocks
    (hP : ∀ s t block xs result,
      run host (applyBlock settings company block) s = (result, t, xs) → P s block xs result)
    (s : σ) (blocks : List Block) :
    ∃ xs shown t, (run host (applyBlocks settings company blocks) s).2.2 = xs ++ shown ∧
      Blockwise host settings company P s blocks xs
        (run host (applyBlocks settings company blocks) s).1.results t ∧ Showing shown := by
  rcases heach : run host (applyEach settings company blocks) s with ⟨results, t, xs⟩
  rcases hopen : run host (openWritten settings company (writtenPaths settings results)) t with
    ⟨opened, u, shown⟩
  have hall := run_applyBlocks heach
  rw [hopen] at hall
  have hblocks := blockwise_of_applyEach hP s blocks
  rw [heach] at hblocks
  rw [hall]
  exact ⟨xs, shown, t, rfl, hblocks, showing_of_openWritten (run_eq_iff.mp hopen).1⟩

end CodeGraft
