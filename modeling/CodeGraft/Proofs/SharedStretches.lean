import CodeGraft.Diff.Shared

/-!
# What versions share

The shared stretches of two versions are equal lines of both, one stretch after another. A version
shares all of its lines with itself: the longest run of its anchors is first met where it stands.
-/

namespace CodeGraft.Diff

/-- Two lists of lines end in the same lines, as many as `run`. -/
def EndTogether (as bs : List Text) (run : Nat) : Prop :=
  ∃ common : List Text, common.length = run ∧ common <:+ as ∧ common <:+ bs

theorem endTogether_zero (as bs : List Text) : EndTogether as bs 0 :=
  ⟨[], rfl, List.nil_suffix, List.nil_suffix⟩

theorem EndTogether.concat {as bs : List Text} {run : Nat} (h : EndTogether as bs run)
    (line : Text) : EndTogether (as ++ [line]) (bs ++ [line]) (run + 1) := by
  obtain ⟨common, rfl, ⟨front, rfl⟩, other, rfl⟩ := h
  exact ⟨common ++ [line], by simp, ⟨front, by simp⟩, other, by simp⟩

/-- A stretch stands in both versions: there are equal lines in its two places. -/
def Shared.StandsIn (olds news : List Text) (s : Shared) : Prop :=
  ∃ oldFront newFront common oldBack newBack : List Text,
    olds = oldFront ++ common ++ oldBack ∧ news = newFront ++ common ++ newBack ∧
      s = ⟨oldFront.length, newFront.length, common.length⟩

theorem EndTogether.standsIn {olds news : List Text} {i j run : Nat}
    (h : EndTogether (olds.take i) (news.take j) run) (hi : i ≤ olds.length)
    (hj : j ≤ news.length) : Shared.StandsIn olds news ⟨i - run, j - run, run⟩ := by
  obtain ⟨common, rfl, ⟨oldFront, hold⟩, newFront, hnew⟩ := h
  have hi' := congrArg List.length hold
  have hj' := congrArg List.length hnew
  simp only [List.length_append, List.length_take] at hi' hj'
  refine ⟨oldFront, newFront, common, olds.drop i, news.drop j, ?_, ?_, ?_⟩
  · rw [hold, List.take_append_drop]
  · rw [hnew, List.take_append_drop]
  · rw [show i - common.length = oldFront.length by omega,
      show j - common.length = newFront.length by omega]

/-- What holds of the first run and of all that come after it holds at every place. -/
theorem forall_getElem?_cons {P : Nat → Nat → Prop} {first : Nat} {row : List Nat}
    (hfirst : P 0 first) (hrow : ∀ k run, row[k]? = some run → P (k + 1) run) :
    ∀ k run, (first :: row)[k]? = some run → P k run := by
  intro k run hrun
  cases k with
  | zero =>
    rw [List.getElem?_cons_zero, Option.some_inj] at hrun
    exact hrun ▸ hfirst
  | succ k => exact hrow k run hrun

theorem getElem?_runRow (line : Text) (news : List Line) (before : List Nat) (k : Nat) :
    (runRow line news before)[k]? = news[k]?.map fun new =>
      if new.anchors && new.text == line then before.getD k 0 + 1 else 0 := by
  induction news generalizing before k with
  | nil => rfl
  | cons new news ih =>
    rw [runRow]
    cases k with
    | zero => cases before <;> rfl
    | succ k =>
      rw [List.getElem?_cons_succ, List.getElem?_cons_succ, ih]
      cases before <;> rfl

/-- What holds of the best stretch so far and of all that a row has to offer holds of the best one in
the end. -/
theorem bestInRow_induction {P : Shared → Prop} {i j : Nat} {row : List Nat} {best : Shared}
    (hbest : P best)
    (hrow : ∀ k run, row[k]? = some run → P ⟨i + 1 - run, j + k + 1 - run, run⟩) :
    P (bestInRow i j row best) := by
  induction row generalizing j best with
  | nil => exact hbest
  | cons run row ih =>
    rw [bestInRow]
    refine ih ?_ fun k next hnext => ?_
    · split
      · exact hrow 0 run rfl
      · exact hbest
    · have h := hrow (k + 1) next hnext
      rwa [show j + (k + 1) = j + 1 + k by omega] at h

theorem standsIn_bestFrom (done : List Text) {olds : List Text} {news : List Line} {before : List Nat}
    {best : Shared}
    (hbefore : ∀ k run, (0 :: before)[k]? = some run →
      EndTogether done ((news.map (·.text)).take k) run)
    (hbest : best.StandsIn (done ++ olds) (news.map (·.text))) :
    (bestFrom news done.length before olds best).StandsIn (done ++ olds) (news.map (·.text)) := by
  induction olds generalizing done before best with
  | nil => exact hbest
  | cons old olds ih =>
    have hrow : ∀ k run, (runRow old news (0 :: before))[k]? = some run →
        k < news.length ∧ EndTogether (done ++ [old]) ((news.map (·.text)).take (k + 1)) run := by
      intro k run hrun
      rw [getElem?_runRow, Option.map_eq_some_iff] at hrun
      obtain ⟨new, hnew, rfl⟩ := hrun
      refine ⟨(List.getElem?_eq_some_iff.mp hnew).1, ?_⟩
      split
      next hfits =>
        simp only [Bool.and_eq_true, beq_iff_eq] at hfits
        rw [List.take_add_one, List.getElem?_map, hnew, Option.map_some, Option.toList_some,
          hfits.2]
        refine EndTogether.concat ?_ old
        cases hrun : (0 :: before)[k]? with
        | none =>
          rw [List.getD_eq_getElem?_getD, hrun]
          exact endTogether_zero _ _
        | some run =>
          rw [List.getD_eq_getElem?_getD, hrun]
          exact hbefore k run hrun
      next => exact endTogether_zero _ _
    have hlength : done.length + 1 = (done ++ [old]).length := by simp
    rw [bestFrom, List.append_cons, hlength]
    refine ih (done ++ [old]) ?_ ?_
    · exact forall_getElem?_cons (endTogether_zero _ _) fun k run hrun => (hrow k run hrun).2
    · rw [List.append_cons] at hbest
      refine bestInRow_induction hbest fun k run hrun => ?_
      obtain ⟨hk, htogether⟩ := hrow k run hrun
      have htake : (done ++ [old] ++ olds).take (done.length + 1) = done ++ [old] := by
        rw [hlength, List.take_left]
      rw [← htake] at htogether
      rw [Nat.zero_add]
      exact htogether.standsIn (by simp) (by rw [List.length_map]; omega)

theorem exists_commonLength (as bs : List Text) :
    ∃ common as' bs' : List Text, as = common ++ as' ∧ bs = common ++ bs' ∧
      commonLength as bs = common.length := by
  fun_induction commonLength as bs with
  | case1 as a bs ih =>
    obtain ⟨common, as', bs', rfl, rfl, hlength⟩ := ih
    exact ⟨a :: common, as', bs', rfl, rfl, by rw [hlength, List.length_cons]⟩
  | case2 a as b bs hne => exact ⟨[], _, _, rfl, rfl, rfl⟩
  | case3 as bs hnone => exact ⟨[], as, bs, rfl, rfl, rfl⟩

theorem standsIn_best (olds : List Text) (news : List Line) :
    (bestFrom news 0 [] olds ⟨0, 0, 0⟩).StandsIn olds (news.map (·.text)) := by
  refine standsIn_bestFrom [] ?_ ⟨[], [], [], olds, _, rfl, rfl, rfl⟩
  exact forall_getElem?_cons (endTogether_zero _ _) fun _ _ hrun => by cases hrun

theorem standsIn_longest (olds : List Text) (news : List Line) :
    (longest olds news).StandsIn olds (news.map (·.text)) := by
  have hbest := standsIn_best olds news
  rw [longest]
  generalize bestFrom news 0 [] olds ⟨0, 0, 0⟩ = best at hbest
  generalize news.map (·.text) = texts at hbest
  obtain ⟨oldFront, newFront, common, oldBack, newBack, rfl, rfl, rfl⟩ := hbest
  have htake : ∀ front back : List Text,
      (front ++ common ++ back).take front.length = front := by simp
  have hdrop : ∀ front back : List Text,
      (front ++ common ++ back).drop (front.length + common.length) = back := by simp
  simp only [htake, hdrop]
  obtain ⟨back, oldFirst, newFirst, hold, hnew, hback⟩ :=
    exists_commonLength oldFront.reverse newFront.reverse
  obtain ⟨ahead, oldLast, newLast, rfl, rfl, hahead⟩ := exists_commonLength oldBack newBack
  rw [List.reverse_eq_iff] at hold hnew
  rw [hback, hahead]
  subst hold hnew
  exact ⟨oldFirst.reverse, newFirst.reverse, back.reverse ++ common ++ ahead, oldLast, newLast,
    by simp, by simp, by simp [Nat.add_assoc]⟩

/-- Shared stretches of two versions from the given lines on, in their order and apart. -/
inductive Aligned : (i j : Nat) → (olds news : List Text) → List Shared → Prop
  | nil {i j : Nat} (olds news : List Text) : Aligned i j olds news []
  | cons {i j : Nat} (oldGap newGap common : List Text) {olds news : List Text} {ss : List Shared}
      (h : Aligned (i + oldGap.length + common.length) (j + newGap.length + common.length) olds
        news ss) :
      Aligned i j (oldGap ++ common ++ olds) (newGap ++ common ++ news)
        (⟨i + oldGap.length, j + newGap.length, common.length⟩ :: ss)

namespace Aligned

variable {i j : Nat} {olds news olds' news' : List Text} {ss ss' : List Shared}

theorem behind (oldGap newGap : List Text)
    (h : Aligned (i + oldGap.length) (j + newGap.length) olds news ss) :
    Aligned i j (oldGap ++ olds) (newGap ++ news) ss := by
  cases h with
  | nil => exact .nil _ _
  | cons oldGap' newGap' common h =>
    have hcons := cons (i := i) (j := j) (oldGap ++ oldGap') (newGap ++ newGap') common
      (by simpa only [List.length_append, Nat.add_assoc] using h)
    simpa only [List.length_append, List.append_assoc, Nat.add_assoc] using hcons

theorem append (h : Aligned i j olds news ss)
    (h' : Aligned (i + olds.length) (j + news.length) olds' news' ss') :
    Aligned i j (olds ++ olds') (news ++ news') (ss ++ ss') := by
  induction h with
  | nil olds news => exact h'.behind olds news
  | cons oldGap newGap common _ ih =>
    have hcons := cons oldGap newGap common
      (ih (by simpa only [List.length_append, Nat.add_assoc] using h'))
    simpa only [List.append_assoc, List.cons_append] using hcons

theorem joinFrom {s : Shared} (h : Aligned i j olds news (s :: ss)) :
    Aligned i j olds news (joinFrom s ss) := by
  induction ss generalizing i j olds news s with
  | nil => exact h
  | cons t ss ih =>
    obtain - | ⟨oldGap, newGap, common, hrest⟩ := h
    rw [Diff.joinFrom]
    split
    next hnext =>
      obtain - | ⟨oldGap', newGap', common', hrest⟩ := hrest
      simp only at hnext
      obtain rfl : oldGap' = [] := List.eq_nil_of_length_eq_zero (by omega)
      obtain rfl : newGap' = [] := List.eq_nil_of_length_eq_zero (by omega)
      have hcons := cons oldGap newGap (common ++ common')
        (by simpa only [List.length_append, List.length_nil, Nat.add_zero, Nat.add_assoc]
          using hrest)
      refine ih ?_
      simpa only [List.length_append, List.nil_append, List.append_assoc] using hcons
    next => exact .cons oldGap newGap common (ih hrest)

theorem join (h : Aligned i j olds news ss) : Aligned i j olds news (join ss) := by
  cases ss with
  | nil => exact h
  | cons s ss => exact h.joinFrom

end Aligned

theorem sharedFrom_eq {i j : Nat} {olds : List Text} {news : List Line} {s : Shared}
    (h : longest olds news = s) :
    sharedFrom i j olds news =
      if 0 < s.size ∧ s.oldStart < olds.length then
        sharedFrom i j (olds.take s.oldStart) (news.take s.newStart) ++
          ⟨i + s.oldStart, j + s.newStart, s.size⟩ ::
            sharedFrom (i + s.oldStart + s.size) (j + s.newStart + s.size)
              (olds.drop (s.oldStart + s.size)) (news.drop (s.newStart + s.size))
      else [] := by
  rw [sharedFrom, h]
  rfl

theorem aligned_sharedFrom (i j : Nat) (olds : List Text) (news : List Line) :
    Aligned i j olds (news.map (·.text)) (sharedFrom i j olds news) := by
  induction hlength : olds.length using Nat.strongRecOn generalizing i j olds news with
  | ind length ih =>
    obtain ⟨oldFront, newFront, common, oldBack, newBack, rfl, hnews, hlongest⟩ :=
      standsIn_longest olds news
    rw [sharedFrom_eq hlongest]
    simp only [List.length_append] at hlength ⊢
    split
    next h =>
      have htake : (news.take newFront.length).map (·.text) = newFront := by simp [hnews]
      have hdrop : (news.drop (newFront.length + common.length)).map (·.text) = newBack := by
        simp [hnews]
      have hfront := ih oldFront.length (by omega) i j oldFront (news.take newFront.length) rfl
      have hback := ih oldBack.length (by omega) (i + oldFront.length + common.length)
        (j + newFront.length + common.length) oldBack
        (news.drop (newFront.length + common.length)) rfl
      rw [htake] at hfront
      rw [hdrop] at hback
      have hold : (oldFront ++ common ++ oldBack).take oldFront.length = oldFront := by simp
      have hrest : (oldFront ++ common ++ oldBack).drop (oldFront.length + common.length) =
          oldBack := by simp
      rw [hnews, hold, hrest, List.append_assoc, List.append_assoc]
      exact hfront.append (.cons [] [] common hback)
    next => exact .nil _ _

theorem aligned_shared (olds news : List Text) : Aligned 0 0 olds news (shared olds news) := by
  have haligned := aligned_sharedFrom 0 0 olds (anchored news)
  rw [anchored_map_text] at haligned
  exact haligned.join

/-! ### A version and itself -/

theorem exists_anchored (lines : List Text) :
    ∃ anchors : Text → Bool, anchored lines = lines.map fun line => ⟨line, anchors line⟩ := by
  unfold anchored
  split
  · exact ⟨fun _ => true, rfl⟩
  · exact ⟨fun line => decide (lines.count line ≤ lines.length / 100 + 1), rfl⟩

def anchorRun (anchors : Text → Bool) (lines : List Text) : Nat :=
  (lines.reverse.takeWhile anchors).length

theorem anchorRun_concat (anchors : Text → Bool) (lines : List Text) (line : Text) :
    anchorRun anchors (lines ++ [line]) =
      if anchors line then anchorRun anchors lines + 1 else 0 := by
  rw [anchorRun, List.reverse_concat, List.takeWhile_cons]
  split <;> rfl

/-- A stretch that stands at the same place in both versions and is at least as long as the runs of
anchors up to a line. -/
structure IsDiagonal (anchors : Text → Bool) (lines : List Text) (i : Nat) (s : Shared) : Prop where
  start_eq : s.oldStart = s.newStart
  size_ge : ∀ k ≤ i, anchorRun anchors (lines.take k) ≤ s.size

theorem bestInRow_append (i j : Nat) (row row' : List Nat) (best : Shared) :
    bestInRow i j (row ++ row') best =
      bestInRow i (j + row.length) row' (bestInRow i j row best) := by
  induction row generalizing j best with
  | nil => rfl
  | cons run row ih =>
    rw [List.cons_append, bestInRow, ih, bestInRow, List.length_cons, Nat.add_right_comm,
      Nat.add_assoc]

theorem bestInRow_of_le {i j : Nat} {row : List Nat} {best : Shared}
    (h : ∀ run ∈ row, run ≤ best.size) : bestInRow i j row best = best := by
  induction row generalizing j with
  | nil => rfl
  | cons run row ih =>
    obtain ⟨hrun, hrow⟩ := List.forall_mem_cons.mp h
    rw [bestInRow, if_neg (Nat.not_lt.mpr hrun), ih hrow]

/-- In a row of a version and itself, no run in front of the place of the line is longer than the
best so far, and none behind it is longer than the run at that place. -/
theorem isDiagonal_bestInRow {anchors : Text → Bool} {lines : List Text} {i : Nat} {row : List Nat}
    {best : Shared} (hbest : IsDiagonal anchors lines i best)
    (hrow : ∀ k run, row[k]? = some run → run ≤ anchorRun anchors (lines.take (k + 1)) ∧
      run ≤ anchorRun anchors (lines.take (i + 1)))
    (hself : row[i]? = some (anchorRun anchors (lines.take (i + 1)))) :
    IsDiagonal anchors lines (i + 1) (bestInRow i 0 row best) := by
  obtain ⟨hi, hrun⟩ := List.getElem?_eq_some_iff.mp hself
  have hsplit : row = row.take i ++ anchorRun anchors (lines.take (i + 1)) :: row.drop (i + 1) := by
    rw [← hrun, ← List.drop_eq_getElem_cons hi, List.take_append_drop]
  have hfront : ∀ run ∈ row.take i, run ≤ best.size := by
    intro run hmem
    obtain ⟨k, hk, rfl⟩ := List.getElem_of_mem hmem
    rw [List.length_take] at hk
    rw [List.getElem_take]
    have hcolumn := (hrow k _ (List.getElem?_eq_getElem (by omega))).1
    exact Nat.le_trans hcolumn (hbest.size_ge _ (by omega))
  have hback : ∀ run ∈ row.drop (i + 1), run ≤ anchorRun anchors (lines.take (i + 1)) := by
    intro run hmem
    obtain ⟨k, hk⟩ := List.mem_iff_getElem?.mp (List.mem_of_mem_drop hmem)
    exact (hrow k run hk).2
  have hlength : 0 + (row.take i).length = i := by
    rw [List.length_take]
    omega
  rw [hsplit, bestInRow_append, bestInRow_of_le hfront, hlength, bestInRow]
  split
  next hless =>
    rw [bestInRow_of_le hback]
    refine ⟨rfl, fun k hk => ?_⟩
    rcases Nat.lt_or_eq_of_le hk with hk | rfl
    · exact Nat.le_of_lt (Nat.lt_of_le_of_lt (hbest.size_ge k (by omega)) hless)
    · exact Nat.le_refl _
  next hmost =>
    have hself := Nat.not_lt.mp hmost
    rw [bestInRow_of_le fun run hmem => Nat.le_trans (hback run hmem) hself]
    refine ⟨hbest.start_eq, fun k hk => ?_⟩
    rcases Nat.lt_or_eq_of_le hk with hk | rfl
    · exact hbest.size_ge k (by omega)
    · exact hself

/-- The runs up to the lines of a version and up to a line of itself are no longer than the runs of
anchors there, and the run up to the line itself is as long. -/
structure IsOwnRow (anchors : Text → Bool) (lines : List Text) (i : Nat) (row : List Nat) : Prop where
  le : ∀ k run, row[k]? = some run →
    run ≤ anchorRun anchors (lines.take k) ∧ run ≤ anchorRun anchors (lines.take i)
  self : row[i]? = some (anchorRun anchors (lines.take i))

theorem isOwnRow_runRow {anchors : Text → Bool} {done olds : List Text} {old : Text}
    {before : List Nat} (h : IsOwnRow anchors (done ++ old :: olds) done.length before) :
    IsOwnRow anchors (done ++ old :: olds) (done.length + 1)
      (0 :: runRow old ((done ++ old :: olds).map fun line => ⟨line, anchors line⟩) before) := by
  have hstep : ∀ k line, (done ++ old :: olds)[k]? = some line →
      anchorRun anchors ((done ++ old :: olds).take (k + 1)) =
        if anchors line then anchorRun anchors ((done ++ old :: olds).take k) + 1 else 0 := by
    intro k line hline
    rw [List.take_add_one, hline, Option.toList_some, anchorRun_concat]
  have hold : (done ++ old :: olds)[done.length]? = some old := by simp
  refine ⟨forall_getElem?_cons ⟨Nat.zero_le _, Nat.zero_le _⟩ fun k run hrun => ?_, ?_⟩
  · rw [getElem?_runRow, List.getElem?_map, Option.map_map, Option.map_eq_some_iff] at hrun
    obtain ⟨line, hline, rfl⟩ := hrun
    simp only [Function.comp_apply]
    split
    next hfits =>
      simp only [Bool.and_eq_true, beq_iff_eq] at hfits
      obtain ⟨hanchors, rfl⟩ := hfits
      rw [hstep k line hline, hstep done.length line hold, if_pos hanchors, if_pos hanchors,
        List.getD_eq_getElem?_getD]
      cases hrun : before[k]? with
      | none => exact ⟨by simp, by simp⟩
      | some run =>
        obtain ⟨hk, hi⟩ := h.le k run hrun
        exact ⟨Nat.succ_le_succ hk, Nat.succ_le_succ hi⟩
    next => exact ⟨Nat.zero_le _, Nat.zero_le _⟩
  · rw [List.getElem?_cons_succ, getElem?_runRow, List.getElem?_map, hold, hstep _ _ hold,
      List.getD_eq_getElem?_getD, h.self]
    simp

/-- The best stretch of a version and itself stands at the same place in both. -/
theorem start_eq_bestFrom {anchors : Text → Bool} (done : List Text) {olds : List Text}
    {before : List Nat} {best : Shared}
    (hbefore : IsOwnRow anchors (done ++ olds) done.length (0 :: before))
    (hbest : IsDiagonal anchors (done ++ olds) done.length best) :
    let s := bestFrom ((done ++ olds).map fun line => ⟨line, anchors line⟩) done.length before olds
      best
    s.oldStart = s.newStart := by
  induction olds generalizing done before best with
  | nil => exact hbest.start_eq
  | cons old olds ih =>
    have hrow := isOwnRow_runRow hbefore
    have hdiagonal := isDiagonal_bestInRow hbest (fun k run => hrow.le (k + 1) run) hrow.self
    have hlength : done.length + 1 = (done ++ [old]).length := by simp
    rw [List.append_cons, hlength] at hrow hdiagonal
    rw [bestFrom, List.append_cons, hlength]
    exact ih (done ++ [old]) hrow hdiagonal

theorem commonLength_self (lines : List Text) : commonLength lines lines = lines.length := by
  induction lines with
  | nil => rfl
  | cons line lines ih => simp [commonLength, ih]

theorem longest_self (lines : List Text) :
    longest lines (anchored lines) = ⟨0, 0, lines.length⟩ := by
  obtain ⟨anchors, hanchored⟩ := exists_anchored lines
  have hstart : (bestFrom (anchored lines) 0 [] lines ⟨0, 0, 0⟩).oldStart =
      (bestFrom (anchored lines) 0 [] lines ⟨0, 0, 0⟩).newStart := by
    rw [hanchored]
    refine start_eq_bestFrom [] ⟨?_, rfl⟩ ⟨rfl, fun k hk => ?_⟩
    · exact forall_getElem?_cons ⟨Nat.zero_le _, Nat.zero_le _⟩ fun _ _ hrun => by cases hrun
    · obtain rfl : k = 0 := Nat.le_zero.mp hk
      exact Nat.le_refl _
  have hstands := standsIn_best lines (anchored lines)
  rw [longest, anchored_map_text]
  generalize bestFrom (anchored lines) 0 [] lines ⟨0, 0, 0⟩ = best at hstart hstands
  obtain ⟨oldFront, newFront, common, oldBack, newBack, hold, -, rfl⟩ := hstands
  have hlength := congrArg List.length hold
  simp only [List.length_append] at hlength
  simp only at hstart
  rw [← hstart]
  simp only [commonLength_self, List.length_reverse, List.length_take, List.length_drop,
    Shared.mk.injEq]
  omega

theorem shared_self (lines : List Text) :
    shared lines lines = if lines = [] then [] else [⟨0, 0, lines.length⟩] := by
  rw [shared, sharedFrom_eq (longest_self lines)]
  cases lines with
  | nil => rfl
  | cons line lines =>
    have hempty : ∀ i j : Nat, ∀ news, sharedFrom i j [] news = [] := by
      intro i j news
      rw [sharedFrom_eq rfl, if_neg (by simp)]
    simp [hempty, join, joinFrom]

end CodeGraft.Diff
