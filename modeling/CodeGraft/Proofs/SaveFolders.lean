import CodeGraft.Apply.Resolve
import CodeGraft.Proofs.NormalPaths

/-!
# Folders that hints are put under

A relative path leads up some folders and then down some others, and its normal form spells just that.
So a hint that is put under a folder takes back as many of the folder's names as it leads up. What
comes out lies in the folder if the hint leads up no further than it comes down the same way again.
-/

namespace CodeGraft

open Text Disk

namespace Path

/-- A way from a folder: up as many folders as `up` says, and then down the others. -/
structure Way where
  up : Nat := 0
  down : List Text := []

namespace Way

/-- A further part of a path takes back the last name or leads up one folder, or else leads down. -/
def step (w : Way) (part : Text) : Way :=
  if part = [] ∨ part = ['.'] then w
  else if part = ['.', '.'] then
    if w.down = [] then { w with up := w.up + 1 } else { w with down := w.down.dropLast }
  else { w with down := w.down ++ [part] }

/-- A way that starts where another one ends. -/
def follow (first w : Way) : Way :=
  ⟨first.up + (w.up - first.down.length),
    first.down.take (first.down.length - w.up) ++ w.down⟩

def spelled (w : Way) : List Text := List.replicate w.up ['.', '.'] ++ w.down

def IsProper (w : Way) : Prop := ∀ name ∈ w.down, IsName name

variable {first w : Way} {part : Text} {ps : List Text}

theorem follow_nil (w : Way) : w.follow {} = w := by
  simp [follow]

theorem nil_follow (w : Way) : follow {} w = w := by
  simp [follow]

/-- It does not matter whether a step is taken before or after a way is set behind another one. -/
theorem follow_step (first w : Way) (part : Text) :
    first.follow (w.step part) = (first.follow w).step part := by
  by_cases hstill : part = [] ∨ part = ['.']
  · simp only [step, if_pos hstill]
  by_cases hdots : part = ['.', '.']
  · by_cases hnone : w.down = []
    · by_cases hover : first.down.length ≤ w.up
      · have hnothing : first.down.length - w.up = 0 := by omega
        have hstep : first.down.length - (w.up + 1) = 0 := by omega
        simp only [step, follow, if_neg hstill, if_pos hdots, hnone, hnothing, hstep,
          List.take_zero, List.append_nil, if_true, Way.mk.injEq, and_true]
        omega
      · have hleft : first.down.take (first.down.length - w.up) ≠ [] := by
          rw [ne_eq, List.take_eq_nil_iff, not_or]
          refine ⟨by omega, ?_⟩
          intro hempty
          simp [hempty] at hover
        have hlast : (first.down.take (first.down.length - w.up)).dropLast =
            first.down.take (first.down.length - (w.up + 1)) := by
          rw [List.dropLast_eq_take, List.take_take, List.length_take]
          congr 1
          omega
        simp only [step, follow, if_neg hstill, if_pos hdots, hnone, hleft, hlast,
          List.append_nil, if_true, if_false, Way.mk.injEq, and_true]
        omega
    · simp [step, follow, hdots, hnone, List.dropLast_append_of_ne_nil]
  · simp [step, follow, hstill, hdots]

theorem follow_foldl (first w : Way) (ps : List Text) :
    first.follow (ps.foldl step w) = ps.foldl step (first.follow w) := by
  induction ps generalizing w with
  | nil => rfl
  | cons part ps ih => rw [List.foldl_cons, ih, follow_step, List.foldl_cons]

theorem IsProper.step (h : w.IsProper) (hpart : '/' ∉ part) : (w.step part).IsProper := by
  unfold Way.step
  split
  next => exact h
  next hplain =>
    obtain ⟨hempty, hdot⟩ := not_or.mp hplain
    split
    next =>
      split
      next => exact h
      next => exact fun name hname => h name (List.dropLast_subset _ hname)
    next hdots =>
      intro name hname
      rcases List.mem_append.mp hname with hname | hname
      · exact h name hname
      · obtain rfl := List.mem_singleton.mp hname
        exact ⟨hempty, hpart, hdot, hdots⟩

theorem IsProper.foldl (h : w.IsProper) (hps : ∀ part ∈ ps, '/' ∉ part) :
    (ps.foldl Way.step w).IsProper := by
  induction ps generalizing w with
  | nil => exact h
  | cons part ps ih =>
    obtain ⟨hpart, hps⟩ := List.forall_mem_cons.mp hps
    exact ih (h.step hpart) hps

theorem foldl_step_of_no_dots (w : Way) (h : ['.', '.'] ∉ ps) :
    ps.foldl step w = { w with down := w.down ++ ps.filter fun p => p ≠ [] ∧ p ≠ ['.'] } := by
  induction ps generalizing w with
  | nil => simp
  | cons part ps ih =>
    simp only [List.mem_cons, not_or] at h
    obtain ⟨hdots, hps⟩ := h
    rw [List.foldl_cons, ih _ hps, step]
    by_cases hstill : part = [] ∨ part = ['.']
    · rw [if_pos hstill, List.filter_cons_of_neg (by simpa [← not_or] using hstill)]
    · rw [if_neg hstill, if_neg (Ne.symm hdots),
        List.filter_cons_of_pos (by simpa [not_or] using hstill), List.append_assoc,
        List.singleton_append]

end Way

def way (path : Text) : Way := (splitOn '/' path).foldl Way.step {}

theorem isProper_way (path : Text) : (way path).IsProper :=
  Way.IsProper.foldl (by simp [Way.IsProper]) fun _ hpart => not_mem_of_mem_splitOn hpart

theorem way_of_no_dots {path : Text} (h : ['.', '.'] ∉ splitOn '/' path) :
    way path = { down := parts path } := by
  rw [way, Way.foldl_step_of_no_dots _ h]
  simp [parts]

theorem way_append (a b : Text) : way (a ++ '/' :: b) = (way a).follow (way b) := by
  rw [way, splitOn_append, List.foldl_append]
  have hfollow := Way.follow_foldl (way a) {} (splitOn '/' b)
  rw [Way.follow_nil] at hfollow
  exact hfollow.symm

theorem way_join (folder : Text) {path : Text} (h : isAbsolute path = false) :
    way (join folder path) = (way folder).follow (way path) := by
  unfold join
  rw [if_neg (by simp [h])]
  by_cases hempty : folder = []
  · subst hempty
    exact (Way.nil_follow _).symm
  by_cases hslash : folder.getLast? = some '/'
  · obtain ⟨front, rfl⟩ := List.getLast?_eq_some_iff.mp hslash
    rw [if_pos (by simp [hslash]), List.append_assoc, List.singleton_append, way_append, way_append]
    have hnothing : way [] = {} := rfl
    rw [hnothing, Way.follow_nil]
  · rw [if_neg (by simp [hempty, hslash]), way_append]

theorem isAbsolute_join_of_not {folder path : Text} (hfolder : isAbsolute folder = false)
    (h : isAbsolute path = false) : isAbsolute (join folder path) = false := by
  unfold join
  rw [if_neg (by simp [h])]
  by_cases hempty : folder = []
  · subst hempty
    exact h
  · split <;> rwa [isAbsolute_append hempty]

/-! ### What a normal form spells -/

theorem stack_eq_of_spelled {w : Way} {stack : List Text} (hstack : stack.reverse = w.spelled) :
    stack = w.down.reverse ++ List.replicate w.up ['.', '.'] := by
  rw [← List.reverse_reverse stack, hstack, Way.spelled, List.reverse_append, List.reverse_replicate]

theorem reverse_pushPart_false {w : Way} {stack : List Text} (hw : w.IsProper)
    (hstack : stack.reverse = w.spelled) (part : Text) :
    (pushPart false stack part).reverse = (w.step part).spelled := by
  unfold pushPart Way.step
  split
  next => exact hstack
  next =>
    split
    next hdots =>
      subst hdots
      obtain rfl := stack_eq_of_spelled hstack
      rcases List.eq_nil_or_concat w.down with hnone | ⟨front, name, hdown⟩
      · -- nothing but pairs of dots is on the stack
        rw [if_pos hnone, hnone]
        cases hup : w.up with
        | zero => rfl
        | succ up =>
          have hreplicate : (List.replicate (up + 1 + 1) (['.', '.'] : Text)).reverse = _ :=
            List.reverse_replicate
          simpa [Way.spelled, List.replicate_succ, hnone] using hreplicate
      · have hname := (hw name (by simp [hdown])).ne_dots
        simp [Way.spelled, hdown, hname]
    next => simp [hstack, Way.spelled]

theorem foldl_pushPart_false {w : Way} {stack ps : List Text} (hw : w.IsProper)
    (hstack : stack.reverse = w.spelled) (hps : ∀ part ∈ ps, '/' ∉ part) :
    (ps.foldl (pushPart false) stack).reverse = (ps.foldl Way.step w).spelled := by
  induction ps generalizing w stack with
  | nil => exact hstack
  | cons part ps ih =>
    obtain ⟨hpart, hps⟩ := List.forall_mem_cons.mp hps
    exact ih (hw.step hpart) (reverse_pushPart_false hw hstack part) hps

theorem normalParts_eq_spelled {path : Text} (h : isAbsolute path = false) :
    normalParts path = (way path).spelled := by
  rw [normalParts, h]
  exact foldl_pushPart_false (w := {}) (by simp [Way.IsProper]) rfl
    fun _ hpart => not_mem_of_mem_splitOn hpart

theorem Way.IsProper.spelled {w : Way} (h : w.IsProper) :
    ∀ part ∈ w.spelled, part ≠ [] ∧ part ≠ ['.'] ∧ '/' ∉ part := by
  intro part hpart
  rcases List.mem_append.mp hpart with hup | hdown
  · obtain rfl := List.eq_of_mem_replicate hup
    decide
  · have hname := h part hdown
    exact ⟨hname.ne_nil, hname.ne_dot, hname.not_mem⟩

theorem rootOf_of_not_isAbsolute {path : Text} (h : isAbsolute path = false) : rootOf path = [] := by
  unfold rootOf
  split
  all_goals first | rfl | simp [isAbsolute] at h

theorem parts_normalize {path : Text} (h : isAbsolute path = false) :
    parts (normalize path) = (way path).spelled := by
  have hproper := (isProper_way path).spelled
  unfold normalize
  rw [rootOf_of_not_isAbsolute h, normalParts_eq_spelled h, List.nil_append]
  by_cases hhere : (way path).spelled = []
  · rw [hhere]
    rfl
  have hsplit := splitOn_joinWith hhere fun part hpart => (hproper part hpart).2.2
  have hne : joinWith ['/'] (way path).spelled ≠ [] := by
    intro hnothing
    rw [hnothing] at hsplit
    exact (hproper [] (by simp [← hsplit, splitOn])).1 rfl
  rw [if_neg (by simpa using hne), parts, hsplit, List.filter_eq_self]
  intro part hpart
  obtain ⟨hempty, hdot, -⟩ := hproper part hpart
  simp [hempty, hdot]

namespace Way

/-- Behind names, a way stays under them if it takes none of them back that it does not lead down
again. -/
theorem prefix_spelled_follow_iff {names : List Text} (h : ['.', '.'] ∉ names) (w : Way) :
    names <+: (follow { down := names } w).spelled ↔
      names = [] ∨ w.up ≤ names.length ∧ names.drop (names.length - w.up) <+: w.down := by
  by_cases hnone : names = []
  · simp [hnone]
  rw [or_iff_right hnone]
  by_cases hover : w.up ≤ names.length
  · have hzero : w.up - names.length = 0 := by omega
    rw [and_iff_right hover]
    have hspelled : (follow { down := names } w).spelled =
        names.take (names.length - w.up) ++ w.down := by
      simp [spelled, follow, hzero]
    have hcancel : names.take (names.length - w.up) ++ names.drop (names.length - w.up) <+:
        names.take (names.length - w.up) ++ w.down ↔
          names.drop (names.length - w.up) <+: w.down := List.prefix_append_right_inj _
    rwa [List.take_append_drop, ← hspelled] at hcancel
  · obtain ⟨extra, hextra⟩ := Nat.exists_eq_add_of_lt (Nat.lt_of_not_le hover)
    obtain ⟨name, others, rfl⟩ := List.exists_cons_of_ne_nil hnone
    have hfar : 0 + (w.up - (name :: others).length) = extra + 1 := by omega
    have hspelled : (follow { down := name :: others } w).spelled.head? = some ['.', '.'] := by
      rw [spelled, follow, hfar, List.replicate_succ]
      rfl
    constructor
    · intro hprefix
      obtain ⟨rest, hrest⟩ := hprefix
      rw [← hrest] at hspelled
      obtain rfl : name = ['.', '.'] := by simpa using hspelled
      exact absurd (List.mem_cons_self ..) h
    · intro hup
      omega

end Way

end Path

/-- A hint that is put under a folder leads from it: it takes back as many of the folder's names as it
leads up, and comes out in the folder exactly if it leads down those names again. So a hint that leads
up nowhere stays in the folder. -/
theorem resolveTarget_from_saveFolder {settings : Settings} {hint : Text}
    (hset : settings.saveFolder ≠ [])
    (hrelative : Path.isAbsolute (cleanHint settings.saveFolder) = false)
    (hdots : ['.', '.'] ∉ splitOn '/' (cleanHint settings.saveFolder))
    (hhint : Path.isAbsolute (cleanHint hint) = false) :
    let folder := Path.normalize (cleanHint settings.saveFolder)
    let names := Path.parts folder
    let w := Path.way (cleanHint hint)
    Path.parts (Path.normalize (cleanHint hint)) = w.spelled ∧
      ∃ target, resolveTarget settings hint = pure target ∧
        Path.parts target = List.replicate (w.up - names.length) ['.', '.'] ++
          (names.take (names.length - w.up) ++ w.down) ∧
        (Path.isWithin folder target = true ↔
          names = [] ∨ w.up ≤ names.length ∧ names.drop (names.length - w.up) <+: w.down) ∧
        (w.up = 0 → Path.isWithin folder target = true) := by
  intro folder names w
  have hway := Path.way_of_no_dots hdots
  have hnames : names = Path.parts (cleanHint settings.saveFolder) := by
    rw [show names = _ from Path.parts_normalize hrelative, hway]
    rfl
  have hnodots : ['.', '.'] ∉ names := by
    rw [hnames]
    exact fun hmem => hdots (List.mem_filter.mp hmem).1
  rw [← hnames] at hway
  have htarget : resolveTarget settings hint =
      pure (Path.normalize (Path.join (cleanHint settings.saveFolder) (cleanHint hint))) := by
    unfold resolveTarget
    simp [hhint, hset]
  have hparts := Path.parts_normalize (Path.isAbsolute_join_of_not hrelative hhint)
  rw [Path.way_join _ hhint, hway] at hparts
  have hwithin := Path.Way.prefix_spelled_follow_iff hnodots w
  rw [← hparts, ← List.isPrefixOf_iff_prefix] at hwithin
  refine ⟨Path.parts_normalize hhint, _, htarget, ?_, hwithin, fun hup => ?_⟩
  · rw [hparts]
    simp [Path.Way.spelled, Path.Way.follow, w]
  · refine hwithin.mpr (.inr ⟨by omega, ?_⟩)
    simp [hup]

/-- A hint that leads up through the folder and down into it again. -/
theorem resolveTarget_from_saveFolder_of_return :
    let settings : Settings := { saveFolder := " out\\sub/ " }
    let hint : Text := "..\\sub/./x/../a.txt"
    ∃ target, resolveTarget settings hint = pure target ∧
      Path.parts target = ["out".toList, "sub".toList, "a.txt".toList] ∧
      Path.isWithin (Path.normalize (cleanHint settings.saveFolder)) target = true := by
  intro settings hint
  obtain ⟨-, target, hresolve, hparts, hwithin, -⟩ :=
    @resolveTarget_from_saveFolder settings hint (by decide) (by decide +kernel)
      (by decide +kernel) (by decide +kernel)
  refine ⟨target, hresolve, hparts.trans (by decide +kernel), hwithin.mpr ?_⟩
  decide +kernel

/-- Two dots in front of a hint lead out of the folder that it is put under. -/
theorem not_resolveTarget_in_saveFolder :
    ¬ ∀ (settings : Settings) (hint : Text), isBlankText settings.saveFolder = false →
      Path.isAbsolute (cleanHint settings.saveFolder) = false →
      ['.', '.'] ∉ splitOn '/' (cleanHint settings.saveFolder) →
      Path.isAbsolute (cleanHint hint) = false →
      ∃ target, resolveTarget settings hint = pure target ∧
        Path.isWithin (Path.normalize (cleanHint settings.saveFolder)) target = true := by
  intro hunder
  obtain ⟨target, hresolve, hwithin⟩ := hunder { saveFolder := "out" } "../a.txt"
    (by decide +kernel) (by decide +kernel) (by decide +kernel) (by decide +kernel)
  have hout : resolveTarget { saveFolder := "out" } "../a.txt" = pure "a.txt".toList := rfl
  obtain rfl : target = "a.txt".toList :=
    Except.ok.inj (Dialogue.done.inj (hresolve.symm.trans hout))
  exact absurd hwithin (by decide +kernel)

end CodeGraft
