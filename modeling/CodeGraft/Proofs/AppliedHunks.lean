import CodeGraft.Proofs.HunkTexts
import CodeGraft.Proofs.SharedStretches

/-!
# Applying differences

The stretches of two versions cover both of them, and the groups leave out only lines that are the
same in both. So the hunks, put where their ranges say, make the new version of the old one; and there
are none when nothing has changed.
-/

namespace CodeGraft.Diff

open Text

/-- The stretches of two versions from the given lines on, one after another and with nothing left out. -/
inductive Tiled : (i j : Nat) → (olds news : List Text) → List Stretch → Prop
  | nil {i j : Nat} : Tiled i j [] [] []
  | cons {i j : Nat} {same : Bool} {removed added olds news : List Text} {ss : List Stretch}
      (hsame : same = true → removed = added)
      (h : Tiled (i + removed.length) (j + added.length) olds news ss) :
      Tiled i j (removed ++ olds) (added ++ news)
        (⟨same, i, i + removed.length, j, j + added.length⟩ :: ss)

namespace Tiled

theorem single {i j : Nat} {same : Bool} {removed added : List Text}
    (hsame : same = true → removed = added) :
    Tiled i j removed added [⟨same, i, i + removed.length, j, j + added.length⟩] := by
  have htiled := cons (i := i) (j := j) hsame nil
  rwa [List.append_nil, List.append_nil] at htiled

theorem same {i j : Nat} (common : List Text) {olds news : List Text} {ss : List Stretch}
    (h : Tiled (i + common.length) (j + common.length) olds news ss) :
    Tiled i j (common ++ olds) (common ++ news)
      (⟨true, i, i + common.length, j, j + common.length⟩ :: ss) :=
  .cons (fun _ => rfl) h

theorem append {i j : Nat} {olds news olds' news' : List Text} {ss ss' : List Stretch}
    (h : Tiled i j olds news ss) (h' : Tiled (i + olds.length) (j + news.length) olds' news' ss') :
    Tiled i j (olds ++ olds') (news ++ news') (ss ++ ss') := by
  induction h with
  | nil => exact h'
  | cons hsame _ ih =>
    rw [List.append_assoc, List.append_assoc]
    exact .cons hsame (ih (by simpa only [List.length_append, Nat.add_assoc] using h'))

end Tiled

/-- The shared stretches and what lies between them cover both versions. -/
theorem tiled_stretchesFrom {i j : Nat} {olds news : List Text} {shared : List Shared}
    (h : Aligned i j olds news shared) :
    Tiled i j olds news
      (stretchesFrom i j (i + olds.length) (j + news.length) shared) := by
  induction h with
  | @nil i j olds news =>
    rw [stretchesFrom]
    split
    next => exact .single nofun
    next hnone =>
      obtain rfl : olds = [] := List.eq_nil_of_length_eq_zero (by omega)
      obtain rfl : news = [] := List.eq_nil_of_length_eq_zero (by omega)
      exact .nil
  | @cons i j oldGap newGap common olds news shared _ ih =>
    have hlater := ih.same common
    simp only [List.length_append, ← Nat.add_assoc] at hlater ⊢
    rw [stretchesFrom]
    dsimp only
    rw [List.append_assoc, List.append_assoc]
    split
    next => exact .cons nofun hlater
    next hnone =>
      obtain rfl : oldGap = [] := List.eq_nil_of_length_eq_zero (by omega)
      obtain rfl : newGap = [] := List.eq_nil_of_length_eq_zero (by omega)
      exact hlater

theorem tiled_stretches (olds news : List Text) : Tiled 0 0 olds news (stretches olds news) := by
  have htiled := tiled_stretchesFrom (aligned_shared olds news)
  rwa [Nat.zero_add, Nat.zero_add] at htiled

/-! ### Groups -/

/-- Groups of stretches of two versions from the given lines on. What is left out in front of them,
between them and behind them is the same in both versions. -/
inductive Grouped : (i j : Nat) → (olds news : List Text) → List (List Stretch) → Prop
  | rest {i j : Nat} (common : List Text) : Grouped i j common common []
  | group {i j : Nat} (common : List Text) {removed added olds news : List Text}
      {group : List Stretch} {groups : List (List Stretch)} (hne : group ≠ [])
      (htiled : Tiled (i + common.length) (j + common.length) removed added group)
      (h : Grouped (i + common.length + removed.length) (j + common.length + added.length) olds news
        groups) :
      Grouped i j (common ++ (removed ++ olds)) (common ++ (added ++ news)) (group :: groups)

namespace Grouped

variable {i j : Nat} {olds news : List Text} {groups : List (List Stretch)}

theorem single {group : List Stretch} (hne : group ≠ []) (htiled : Tiled i j olds news group) :
    Grouped i j olds news [group] := by
  have hgrouped := Grouped.group (i := i) (j := j) [] hne htiled (.rest [])
  simpa using hgrouped

theorem behind (common : List Text)
    (h : Grouped (i + common.length) (j + common.length) olds news groups) :
    Grouped i j (common ++ olds) (common ++ news) groups := by
  cases h with
  | rest more => exact .rest _
  | group more hne htiled h =>
    rw [← List.append_assoc common, ← List.append_assoc common]
    refine .group (common ++ more) hne ?_ ?_
    · simpa only [List.length_append, Nat.add_assoc] using htiled
    · simpa only [List.length_append, Nat.add_assoc] using h

theorem before (h : Grouped i j olds news groups) (common : List Text) :
    Grouped i j (olds ++ common) (news ++ common) groups := by
  induction h with
  | rest more => exact .rest _
  | group more hne htiled _ ih =>
    simp only [List.append_assoc]
    exact .group more hne htiled ih

end Grouped

theorem first_same (n i j : Nat) (common : List Text) :
    Stretch.first n ⟨true, i, i + common.length, j, j + common.length⟩ =
      ⟨true, i, i + (common.take n).length, j, j + (common.take n).length⟩ := by
  have hmin : ∀ k, min (k + common.length) (k + n) = k + min n common.length := by omega
  rw [Stretch.first, List.length_take, hmin, hmin]

theorem last_same (n i j : Nat) (common : List Text) :
    Stretch.last n ⟨true, i, i + common.length, j, j + common.length⟩ =
      ⟨true, i + (common.take (common.length - n)).length, i + common.length,
        j + (common.take (common.length - n)).length, j + common.length⟩ := by
  have hmax : ∀ k, max k (k + common.length - n) =
      k + min (common.length - n) common.length := by omega
  rw [Stretch.last, List.length_take, hmax, hmax]

section

variable {i j : Nat} {olds news : List Text} {ss : List Stretch}

theorem add_length_take_drop (k m : Nat) (common : List Text) :
    k + (common.take m).length + (common.drop m).length = k + common.length := by
  rw [Nat.add_assoc, ← List.length_append, List.take_append_drop]

theorem Tiled.exists_cons {s : Stretch} (h : Tiled i j olds news (s :: ss)) :
    ∃ removed added olds' news', olds = removed ++ olds' ∧ news = added ++ news' ∧
      Tiled i j removed added [s] ∧
        Tiled (i + removed.length) (j + added.length) olds' news' ss := by
  cases h with
  | cons hsame h => exact ⟨_, _, _, _, rfl, rfl, .single hsame, h⟩

theorem Tiled.same_last (n : Nat) (common : List Text)
    (h : Tiled (i + common.length) (j + common.length) olds news ss) :
    Tiled (i + (common.take (common.length - n)).length)
      (j + (common.take (common.length - n)).length)
      (common.drop (common.length - n) ++ olds) (common.drop (common.length - n) ++ news)
      (Stretch.last n ⟨true, i, i + common.length, j, j + common.length⟩ :: ss) := by
  have hlength := fun k => add_length_take_drop k (common.length - n) common
  rw [last_same, ← hlength i, ← hlength j]
  refine .same (common.drop (common.length - n)) ?_
  rwa [hlength, hlength]

theorem Tiled.exists_trimFirst (h : Tiled i j olds news ss) (n : Nat) :
    ∃ common olds' news', olds = common ++ olds' ∧ news = common ++ news' ∧
      Tiled (i + common.length) (j + common.length) olds' news' (trimFirst n ss) := by
  cases h with
  | nil => exact ⟨[], [], [], rfl, rfl, .nil⟩
  | @cons _ _ same common _ _ _ _ hsame h =>
    cases same with
    | false => exact ⟨[], _, _, rfl, rfl, .cons nofun h⟩
    | true =>
      obtain rfl := hsame rfl
      refine ⟨_, _, _, ?_, ?_, h.same_last n common⟩
      · rw [← List.append_assoc, List.take_append_drop]
      · rw [← List.append_assoc, List.take_append_drop]

theorem Tiled.exists_trimLast (h : Tiled i j olds news ss) (n : Nat) :
    ∃ common olds' news', olds = olds' ++ common ∧ news = news' ++ common ∧
      Tiled i j olds' news' (trimLast n ss) := by
  induction h with
  | nil => exact ⟨[], [], [], rfl, rfl, .nil⟩
  | @cons i j same removed added olds news ss hsame h ih =>
    cases ss with
    | nil =>
      cases h
      cases same with
      | false => exact ⟨[], _, _, by simp, by simp, .single nofun⟩
      | true =>
        obtain rfl := hsame rfl
        refine ⟨removed.drop n, removed.take n, removed.take n, by simp, by simp, ?_⟩
        have htiled := Tiled.same (i := i) (j := j) (removed.take n) .nil
        rw [List.append_nil, ← first_same] at htiled
        exact htiled
    | cons s ss =>
      obtain ⟨last, olds', news', rfl, rfl, htiled⟩ := ih
      exact ⟨last, removed ++ olds', added ++ news', by simp, by simp, .cons hsame htiled⟩

theorem grouped_groupsFrom (n : Nat) {group : List Stretch} {removed added : List Text}
    (hgroup : Tiled i j removed added group)
    (h : Tiled (i + removed.length) (j + added.length) olds news ss) :
    Grouped i j (removed ++ olds) (added ++ news) (groupsFrom n group ss) := by
  induction ss generalizing i j removed added olds news group with
  | nil =>
    cases h
    rw [List.append_nil, List.append_nil, groupsFrom.eq_def]
    dsimp only
    split
    next =>
      cases hgroup
      exact .rest []
    next s =>
      split
      next hsame =>
        cases hgroup with
        | cons hcommon h =>
          cases h
          obtain rfl := hcommon hsame
          exact .rest _
      next => exact .single (by simp) hgroup
    next hnil _ => exact .single hnil hgroup
  | cons s ss ih =>
    rw [groupsFrom]
    split
    next hcut =>
      obtain ⟨hsame, hlong⟩ := hcut
      cases h with
      | @cons _ _ same common added' olds news _ hcommon h =>
        obtain rfl : same = true := hsame
        obtain rfl := hcommon rfl
        rw [Nat.add_sub_cancel_left] at hlong
        obtain ⟨middle, hmiddle⟩ :
            ∃ middle, common.take n ++ middle = common.take (common.length - n) := by
          refine ⟨(common.take (common.length - n)).drop n, ?_⟩
          rw [← Nat.min_eq_left (show n ≤ common.length - n by omega), ← List.take_take,
            Nat.min_eq_left (by omega), List.take_append_drop]
        have hcommon : ∀ lines : List Text, common ++ lines =
            common.take n ++ (middle ++ (common.drop (common.length - n) ++ lines)) := by
          intro lines
          rw [← List.append_assoc, ← List.append_assoc, hmiddle, List.take_append_drop]
        have hfirst : Tiled i j (removed ++ common.take n) (added ++ common.take n)
            (group ++ [Stretch.first n ⟨true, i + removed.length,
              i + removed.length + common.length, j + added.length,
              j + added.length + common.length⟩]) := by
          refine hgroup.append ?_
          rw [first_same]
          simpa using Tiled.same (common.take n) .nil
        rw [hcommon, hcommon, ← List.append_assoc removed, ← List.append_assoc added]
        refine .group [] (by simp) hfirst (.behind middle ?_)
        have hplace : ∀ (k : Nat) (lines : List Text),
            k + List.length ([] : List Text) + (lines ++ common.take n).length + middle.length =
              k + lines.length + (common.take (common.length - n)).length := by
          intro k lines
          rw [← hmiddle, List.length_append, List.length_append, List.length_nil]
          omega
        rw [hplace, hplace]
        refine ih ?_ ?_
        · simpa using Tiled.same_last n common .nil
        · rwa [add_length_take_drop, add_length_take_drop]
    next =>
      obtain ⟨removed', added', olds', news', rfl, rfl, hs, hss⟩ := h.exists_cons
      rw [← List.append_assoc, ← List.append_assoc]
      refine ih (hgroup.append hs) ?_
      simpa only [List.length_append, Nat.add_assoc] using hss

theorem grouped_groups (n : Nat) (h : Tiled i j olds news ss) :
    Grouped i j olds news (groups n ss) := by
  obtain ⟨front, olds, news, rfl, rfl, hfirst⟩ := h.exists_trimFirst n
  obtain ⟨back, olds, news, rfl, rfl, hlast⟩ := hfirst.exists_trimLast n
  exact .behind front ((grouped_groupsFrom n .nil hlast).before back)

end

theorem oldSide_append (lines lines' : List (Mark × Text)) :
    oldSide (lines ++ lines') = oldSide lines ++ oldSide lines' := by
  simp [oldSide]

theorem newSide_append (lines lines' : List (Mark × Text)) :
    newSide (lines ++ lines') = newSide lines ++ newSide lines' := by
  simp [newSide]

theorem oldSide_map (mark : Mark) (lines : List Text) :
    oldSide (lines.map (mark, ·)) = if mark = .added then [] else lines := by
  cases mark <;> simp [oldSide, List.filter_map, Function.comp_def]

theorem newSide_map (mark : Mark) (lines : List Text) :
    newSide (lines.map (mark, ·)) = if mark = .removed then [] else lines := by
  cases mark <;> simp [newSide, List.filter_map, Function.comp_def]

/-- A hunk that replaces the lines of the old version from line `i` on, and whose new lines stand from
line `j` on. -/
structure Hunk.Replaces (h : Hunk) (i j : Nat) (removed added : List Text) : Prop where
  oldStart : h.oldStart = i
  oldStop : h.oldStop = i + removed.length
  newStart : h.newStart = j
  newStop : h.newStop = j + added.length
  oldSide : oldSide h.lines = removed
  newSide : newSide h.lines = added

theorem Hunk.Replaces.counted {h : Hunk} {i j : Nat} {removed added : List Text}
    (hreplaces : h.Replaces i j removed added) : h.IsCounted := by
  rw [Hunk.IsCounted, hreplaces.oldStart, hreplaces.oldStop, hreplaces.newStart,
    hreplaces.newStop, hreplaces.oldSide, hreplaces.newSide]
  exact ⟨rfl, rfl⟩

theorem drop_take_between {front : List Text} {i : Nat} (hi : front.length = i)
    (between back : List Text) :
    ((front ++ (between ++ back)).take (i + between.length)).drop i = between := by
  subst hi
  rw [← List.append_assoc, ← List.length_append, List.take_left, List.drop_left]

section

variable {i j : Nat} {removed added : List Text} {group : List Stretch}

theorem Tiled.start_eq (h : Tiled i j removed added group) (hne : group ≠ []) :
    (group.head?.map (·.oldStart)).getD 0 = i ∧ (group.head?.map (·.newStart)).getD 0 = j := by
  cases h with
  | nil => exact absurd rfl hne
  | cons => exact ⟨rfl, rfl⟩

theorem Tiled.stop_eq (h : Tiled i j removed added group) (hne : group ≠ []) :
    (group.getLast?.map (·.oldStop)).getD 0 = i + removed.length ∧
      (group.getLast?.map (·.newStop)).getD 0 = j + added.length := by
  induction h with
  | nil => exact absurd rfl hne
  | @cons i j same removed added olds news ss _ h ih =>
    cases ss with
    | nil =>
      cases h
      simp
    | cons s ss =>
      rw [List.getLast?_cons_cons, List.length_append, List.length_append, ← Nat.add_assoc,
        ← Nat.add_assoc]
      exact ih (by simp)

theorem sides_marked {same : Bool} (hsame : same = true → removed = added)
    {oldFront newFront : List Text} (hi : oldFront.length = i) (hj : newFront.length = j)
    (oldBack newBack : List Text) :
    let lines := Stretch.marked (oldFront ++ (removed ++ oldBack)) (newFront ++ (added ++ newBack))
      ⟨same, i, i + removed.length, j, j + added.length⟩
    oldSide lines = removed ∧ newSide lines = added := by
  dsimp only [Stretch.marked]
  rw [drop_take_between hi, drop_take_between hj]
  cases same with
  | true =>
    obtain rfl := hsame rfl
    rw [if_pos rfl, oldSide_map, newSide_map]
    exact ⟨rfl, rfl⟩
  | false =>
    rw [if_neg Bool.false_ne_true, oldSide_append, newSide_append, oldSide_map, newSide_map,
      oldSide_map, newSide_map]
    exact ⟨List.append_nil _, rfl⟩

theorem Tiled.sides (h : Tiled i j removed added group) (oldFront newFront : List Text)
    (hi : oldFront.length = i) (hj : newFront.length = j) (oldBack newBack : List Text) :
    let lines := group.flatMap
      (·.marked (oldFront ++ (removed ++ oldBack)) (newFront ++ (added ++ newBack)))
    oldSide lines = removed ∧ newSide lines = added := by
  induction h generalizing oldFront newFront with
  | nil => exact ⟨rfl, rfl⟩
  | @cons i j same removed added olds news ss hsame h ih =>
    have hfirst := sides_marked hsame hi hj (olds ++ oldBack) (news ++ newBack)
    have hlater := ih (oldFront ++ removed) (newFront ++ added) (by simp [hi]) (by simp [hj])
    simp only [List.append_assoc] at hfirst hlater ⊢
    rw [List.flatMap_cons, oldSide_append, newSide_append, hfirst.1, hfirst.2, hlater.1, hlater.2]
    exact ⟨rfl, rfl⟩

theorem Tiled.replaces (h : Tiled i j removed added group) (hne : group ≠ [])
    (oldFront newFront : List Text) (hi : oldFront.length = i) (hj : newFront.length = j)
    (oldBack newBack : List Text) :
    (Hunk.ofGroup (oldFront ++ (removed ++ oldBack)) (newFront ++ (added ++ newBack))
      group).Replaces i j removed added := by
  obtain ⟨hold, hnew⟩ := h.sides oldFront newFront hi hj oldBack newBack
  exact ⟨(h.start_eq hne).1, (h.stop_eq hne).1, (h.start_eq hne).2, (h.stop_eq hne).2, hold, hnew⟩

end

theorem applyHunks?_cons {h : Hunk} {i j : Nat} {removed added common olds : List Text}
    {hs : List Hunk} (hreplaces : h.Replaces (i + common.length) (j + common.length) removed added) :
    applyHunks? i j (h :: hs) (common ++ (removed ++ olds)) =
      (applyHunks? (i + common.length + removed.length) (j + common.length + added.length) hs
        olds).map (common ++ added ++ ·) := by
  rw [applyHunks?, hreplaces.oldStart, hreplaces.oldStop, hreplaces.newStart, hreplaces.newStop,
    hreplaces.oldSide, hreplaces.newSide, Nat.add_sub_cancel_left]
  rw [if_pos (by simp), ← List.drop_drop, List.drop_left, List.drop_left, List.take_left]
  cases applyHunks? _ _ hs olds <;> rfl

theorem Grouped.spec {i j : Nat} {olds news : List Text} {groups : List (List Stretch)}
    (h : Grouped i j olds news groups) (oldFront newFront : List Text)
    (hi : oldFront.length = i) (hj : newFront.length = j) :
    let hs := groups.map (Hunk.ofGroup (oldFront ++ olds) (newFront ++ news))
    (∀ hunk ∈ hs, hunk.IsCounted) ∧ applyHunks? i j hs olds = some news := by
  induction h generalizing oldFront newFront with
  | rest common => exact ⟨by simp, rfl⟩
  | @group i j common removed added olds news group groups hne htiled h ih =>
    obtain ⟨hcounted, hrest⟩ := ih (oldFront ++ common ++ removed) (newFront ++ common ++ added)
      (by simp [hi, Nat.add_assoc]) (by simp [hj, Nat.add_assoc])
    have hreplaces := htiled.replaces hne (oldFront ++ common) (newFront ++ common) (by simp [hi])
      (by simp [hj]) olds news
    simp only [List.append_assoc] at hcounted hrest hreplaces
    rw [List.map_cons]
    refine ⟨List.forall_mem_cons.mpr ⟨hreplaces.counted, hcounted⟩, ?_⟩
    rw [applyHunks?_cons hreplaces, hrest, Option.map_some, List.append_assoc]

theorem mem_of_mem_marked {olds news : List Text} {s : Stretch} {line : Mark × Text}
    (h : line ∈ s.marked olds news) : line.2 ∈ olds ∨ line.2 ∈ news := by
  have hmem : ∀ {lines : List Text} {start stop : Nat} {mark : Mark},
      line ∈ ((lines.take stop).drop start).map (mark, ·) → line.2 ∈ lines := by
    intro lines start stop mark hline
    obtain ⟨text, htext, rfl⟩ := List.mem_map.mp hline
    exact List.mem_of_mem_take (List.mem_of_mem_drop htext)
  rw [Stretch.marked] at h
  split at h
  · exact .inl (hmem h)
  · rcases List.mem_append.mp h with h | h
    · exact .inl (hmem h)
    · exact .inr (hmem h)

theorem hunks_spec (n : Nat) (olds news : List Text) :
    (∀ hunk ∈ hunks n olds news, hunk.IsCounted) ∧
      applyHunks? 0 0 (hunks n olds news) olds = some news :=
  (grouped_groups n (tiled_stretches olds news)).spec [] [] rfl rfl

theorem isReadable_of_mem_hunks {n : Nat} {old new : Text} {hunk : Hunk}
    (h : hunk ∈ hunks n (brokenLines old) (brokenLines new)) : hunk.IsReadable := by
  refine ⟨(hunks_spec n _ _).1 hunk h, fun line hline => ?_⟩
  obtain ⟨group, -, rfl⟩ := List.mem_map.mp h
  obtain ⟨s, -, hline⟩ := List.mem_flatMap.mp hline
  rcases mem_of_mem_marked hline with hline | hline
  · exact feedsLast_brokenLines old _ hline
  · exact feedsLast_brokenLines new _ hline

theorem groups_same (n : Nat) {s : Stretch} (h : s.same = true) : groups n [s] = [] := by
  have hsame : ((s.last n).first n).same = true := h
  have hshort : ((s.last n).first n).oldStop - ((s.last n).first n).oldStart ≤ n := by
    simp only [Stretch.first, Stretch.last]
    omega
  have htrimmed : trimLast n (trimFirst n [s]) = [(s.last n).first n] := by
    rw [trimFirst, if_pos h, trimLast, if_pos (by exact h)]
  rw [groups, htrimmed, groupsFrom, if_neg (by omega), List.nil_append, groupsFrom, if_pos hsame]

theorem hunks_self (n : Nat) (lines : List Text) : hunks n lines lines = [] := by
  rw [hunks, stretches, shared_self, List.map_eq_nil_iff]
  split
  next hlines =>
    subst hlines
    rfl
  next =>
    simp only [stretchesFrom, Nat.lt_irrefl, Nat.zero_add, or_self, if_false]
    exact groups_same n rfl

/-- A difference is empty when nothing has changed, and only then; whoever has the old version and
the difference has the new version. -/
theorem unified_carries_new_version (n : Nat) (old new : Text) {path : Text} (hpath : '\n' ∉ path) :
    (unified n path old new = [] ↔ old = new) ∧
      patched? (unified n path old new) old = some new := by
  have hpatched : patched? (unified n path old new) old = some new := by
    rw [patched?, readHunks?_unified hpath rfl fun _ => isReadable_of_mem_hunks]
    simp [(hunks_spec n _ _).2, brokenLines_flatten]
  refine ⟨⟨fun hempty => ?_, ?_⟩, hpatched⟩
  · have hold : patched? [] old = some old := congrArg some (brokenLines_flatten old)
    rw [hempty] at hpatched
    exact Option.some.inj (hold.symm.trans hpatched)
  · rintro rfl
    rw [unified, hunks_self]

/-- Lines that look like the marks of a difference, one that ends in a form feed, and a last one that
gets its line feed. -/
theorem unified_carries_marked_lines :
    '\n' ∉ "a".toList ∧
      unified 1 "a" "-- a\r\nb\x0cc\n+++ d" "-- a\nb\x0cc\n+++ d\n" =
        "--- a/a\n+++ b/a\n@@ -1,4 +1,4 @@\n--- a\r\n+-- a\n b\x0c\n\\ No newline at end of file\n" ++
          " c\n-+++ d\n\\ No newline at end of file\n++++ d\n" ∧
      patched? (unified 1 "a" "-- a\r\nb\x0cc\n+++ d" "-- a\nb\x0cc\n+++ d\n")
        "-- a\r\nb\x0cc\n+++ d" = some "-- a\nb\x0cc\n+++ d\n" :=
  ⟨by decide, by decide +kernel, (unified_carries_new_version 1 _ _ (by decide)).2⟩

end CodeGraft.Diff
