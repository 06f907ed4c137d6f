import CodeGraft.Proofs.RegionPlaces
import Mathlib.Order.MinMax

/-!
# Carriage returns in front of line feeds

A text without carriage returns is read the same when one is put in front of each of its line feeds:
its fences are those of the text at the offsets to which they move, and the code blocks differ in the
ends of their lines only.
-/

namespace CodeGraft

open Text

namespace Text

/-- The text with a carriage return in front of every line feed. -/
def withReturns (text : Text) : Text := text.flatMap fun c => if c = '\n' then ['\r', '\n'] else [c]

@[simp] theorem withReturns_nil : withReturns [] = [] := rfl

theorem withReturns_append (a b : Text) : withReturns (a ++ b) = withReturns a ++ withReturns b :=
  List.flatMap_append

theorem withReturns_feed (text : Text) :
    withReturns ('\n' :: text) = '\r' :: '\n' :: withReturns text := rfl

theorem withReturns_cons {c : Char} (h : c ≠ '\n') (text : Text) :
    withReturns (c :: text) = c :: withReturns text := by
  simp [withReturns, h]

theorem withReturns_of_not_mem {text : Text} (h : '\n' ∉ text) : withReturns text = text := by
  induction text with
  | nil => rfl
  | cons c text ih =>
    simp only [List.mem_cons, not_or] at h
    rw [withReturns_cons (Ne.symm h.1), ih h.2]

/-- How much stands in front of an offset when the carriage returns are put in. -/
def moved (text : Text) (i : Nat) : Nat := (withReturns (text.take i)).length

/-- Where the character at an offset stands when the carriage returns are put in. -/
def movedChar (text : Text) (i : Nat) : Nat :=
  if text[i]? = some '\n' then moved text i + 1 else moved text i

theorem moved_append (before rest : Text) :
    moved (before ++ rest) before.length = (withReturns before).length := by
  rw [moved, List.take_left]

theorem moved_line {before line rest : Text} (h : '\n' ∉ line) {k : Nat} (hk : k ≤ line.length) :
    moved (before ++ (line ++ rest)) (before.length + k) = (withReturns before).length + k := by
  have hpart : '\n' ∉ line.take k := fun hmem => h (List.mem_of_mem_take hmem)
  rw [moved, List.take_length_add_append, List.take_append_of_le_length hk, withReturns_append,
    withReturns_of_not_mem hpart, List.length_append, List.length_take, Nat.min_eq_left hk]

theorem moved_mono (text : Text) : Monotone (moved text) := by
  intro i j h
  have hsplit : text.take j = text.take i ++ (text.take j).drop i := by
    conv => lhs; rw [← List.take_append_drop i (text.take j), List.take_take, Nat.min_eq_left h]
  rw [moved, moved, hsplit, withReturns_append, List.length_append]
  exact Nat.le_add_right _ _

theorem movedChar_line {before line : Text} (h : '\n' ∉ line) (rest : Text) :
    movedChar (before ++ (line ++ rest)) (before.length + line.length) =
      (withReturns before).length + (line.length + if rest.head? = some '\n' then 1 else 0) := by
  have hchar : (before ++ (line ++ rest))[before.length + line.length]? = rest.head? := by
    rw [← List.append_assoc, ← List.length_append, List.getElem?_append_right (Nat.le_refl _),
      Nat.sub_self, ← List.head?_eq_getElem?]
  rw [movedChar, hchar, moved_line h (Nat.le_refl _)]
  split <;> rfl

theorem take_withReturns (text : Text) (i : Nat) :
    (withReturns text).take (moved text i) = withReturns (text.take i) := by
  conv => lhs; rw [← List.take_append_drop i text, withReturns_append]
  rw [List.take_append_drop i text]
  exact List.take_left

theorem slice_withReturns (text : Text) (i j : Nat) :
    slice (withReturns text) (moved text i) (moved text j) = withReturns (slice text i j) := by
  rw [slice, take_withReturns, slice]
  rcases Nat.le_total i j with h | h
  · have hi : text.take i = (text.take j).take i := by rw [List.take_take, Nat.min_eq_left h]
    rw [moved, hi]
    conv => lhs; arg 2; rw [← List.take_append_drop i (text.take j), withReturns_append]
    exact List.drop_left
  · rw [List.drop_eq_nil_of_le (moved_mono text h), List.drop_eq_nil_of_le]
    · rfl
    · simp
      omega

theorem moved_length (text : Text) : moved text text.length = (withReturns text).length := by
  rw [moved, List.take_length]

theorem moved_feed {text : Text} {i : Nat} (h : text[i]? = some '\n') :
    moved text (i + 1) = moved text i + 2 ∧ (withReturns text)[moved text i]? = some '\r' ∧
      (withReturns text)[moved text i + 1]? = some '\n' := by
  have htake : text.take (i + 1) = text.take i ++ ['\n'] := by
    rw [List.take_add_one, h]
    rfl
  have hsplit : withReturns text =
      withReturns (text.take i) ++ '\r' :: '\n' :: withReturns (text.drop (i + 1)) := by
    conv => lhs; rw [← List.take_append_drop (i + 1) text, htake, List.append_assoc,
      withReturns_append]
    rfl
  refine ⟨by rw [moved, htake, withReturns_append, List.length_append]; rfl, ?_, ?_⟩
  · rw [hsplit, moved]
    simp
  · rw [hsplit, moved]
    simp

/-- The bare lines do not tell whether carriage returns stand in front of the line feeds. -/
theorem map_brokenLinesFrom_withReturns {line text : Text} (hline : '\r' ∉ line)
    (htext : '\r' ∉ text) :
    (brokenLinesFrom line (withReturns text)).map withoutBreak =
      (brokenLinesFrom line text).map withoutBreak := by
  induction text generalizing line with
  | nil => rfl
  | cons c text ih =>
    simp only [List.mem_cons, not_or] at htext
    have hreturn : c ≠ '\r' := Ne.symm htext.1
    rw [brokenLinesFrom_cons (absurd · hreturn)]
    by_cases hfeed : c = '\n'
    · subst hfeed
      have hlast : line.reverse.getLast? ≠ some '\r' := fun hlast =>
        hline (List.mem_reverse.mp (List.mem_of_getLast? hlast))
      rw [withReturns_feed, brokenLinesFrom, List.map_cons, ih (by simp) htext.2,
        if_pos (by decide), List.map_cons, @List.reverse_cons _ '\n' line, withoutBreak_append _ rfl fun _ => hlast]
      simp [withoutBreak]
    · rw [withReturns_cons hfeed, brokenLinesFrom_cons (absurd · hreturn)]
      split
      · rw [List.map_cons, List.map_cons, ih (by simp) htext.2]
      · exact ih (by simp [htext.1, hline]) htext.2

theorem bareLines_withReturns {text : Text} (h : '\r' ∉ text) :
    bareLines (withReturns text) = bareLines text :=
  map_brokenLinesFrom_withReturns (by simp) h

end Text

namespace Fence

/-- A fence when the carriage returns are put in. -/
def moved (text : Text) (f : Fence) : Fence :=
  { f with start := Text.moved text f.start, lineStart := Text.moved text f.lineStart,
           lineEnd := movedChar text f.lineEnd }

theorem ofLine_append_of_blank {line blanks : Text} (hblanks : isBlankText blanks = true)
    (hlast : ∀ c ∈ line.getLast?, c ∉ blanks.head?) (s s' : Nat) :
    ofLine s' (line ++ blanks) = (ofLine s line).map fun f =>
      { f with start := s' + (f.start - s), lineStart := s',
               lineEnd := s' + (line.length + blanks.length) } := by
  have hfree : ∀ run ∈ blanks.splitBy (· == ·), charOf? run = none :=
    fun _ hrun => charOf?_of_fenceFree (fenceFree_of_blank hblanks) hrun
  have hruns : ∀ (left : Text) (runs : List Text),
      ofRuns s' (s' + (line.length + blanks.length)) left (runs ++ blanks.splitBy (· == ·)) =
        (ofRuns s (s + line.length) left runs).map fun f =>
          { f with start := s' + (f.start - s), lineStart := s',
                   lineEnd := s' + (line.length + blanks.length) } := by
    intro left runs
    induction runs generalizing left with
    | nil => exact ofRuns_of_free hfree
    | cons run runs ih =>
      simp only [List.cons_append, ofRuns]
      cases charOf? run with
      | none => exact ih _
      | some c =>
        rw [List.map_cons, ← ih, List.flatten_append, List.flatten_splitBy,
          trim_append_of_blank _ hblanks, Nat.add_sub_cancel_left]
  rw [ofLine, List.splitBy_append, List.length_append, hruns]
  · rfl
  · intro c hc d hd
    simpa using fun h : c = d => hlast c hc (h ▸ hd)

theorem moved_of_mem_ofLine {before line : Text} (h : '\n' ∉ line) (rest : Text) {f : Fence}
    (hf : f ∈ ofLine before.length line) :
    f.moved (before ++ (line ++ rest)) =
      { f with
        start := (withReturns before).length + (f.start - before.length)
        lineStart := (withReturns before).length
        lineEnd := (withReturns before).length +
          (line.length + if rest.head? = some '\n' then 1 else 0) } := by
  have hinside := inside_of_mem_ofLine hf
  have hleft := hinside.left_le
  have hstop := hinside.stop_le
  simp only [stop] at hstop
  have hstart : before.length + (f.start - before.length) = f.start := by omega
  have hmoved : Text.moved (before ++ (line ++ rest)) (before.length + (f.start - before.length)) =
      (withReturns before).length + (f.start - before.length) := moved_line h (by omega)
  rw [hstart] at hmoved
  rw [moved, hmoved, hinside.lineStart_eq, hinside.lineEnd_eq, movedChar_line h rest,
    moved_append]

theorem ofLines_withReturns (before text : Text) (h : '\r' ∉ text) :
    ofLines (withReturns before).length (lines (withReturns text)) =
      (ofLines before.length (lines text)).map (moved (before ++ text)) := by
  by_cases hfeed : '\n' ∈ text
  · obtain ⟨line, rest, rfl, hline⟩ := List.eq_append_cons_of_mem hfeed
    simp only [List.mem_append, List.mem_cons, not_or] at h
    have hreturned : withReturns (line ++ '\n' :: rest) =
        (line ++ ['\r']) ++ '\n' :: withReturns rest := by
      rw [withReturns_append, withReturns_feed, withReturns_of_not_mem hline]
      simp
    have hrest := ofLines_withReturns (before ++ (line ++ ['\n'])) rest h.2.2
    have hfirst : ofLine (withReturns before).length (line ++ ['\r']) =
        (ofLine before.length line).map (moved (before ++ (line ++ '\n' :: rest))) := by
      rw [ofLine_append_of_blank (by decide) _ before.length]
      · refine List.map_congr_left fun f hf => ?_
        rw [moved_of_mem_ofLine hline _ hf]
        rfl
      · intro c hc hd
        obtain rfl : '\r' = c := by simpa using hd
        exact h.1 (List.mem_of_getLast? hc)
    rw [hreturned, lines_append_of_not_mem (by simpa using hline), lines_append_of_not_mem hline,
      ofLines, ofLines, hfirst, List.map_append]
    congr 1
    simpa [withReturns_append, withReturns_of_not_mem hline, withReturns_feed, Nat.add_assoc]
      using hrest
  · have hline := @ofLine_append_of_blank text [] isBlankText_nil (by simp) before.length
      (withReturns before).length
    rw [List.append_nil] at hline
    rw [withReturns_of_not_mem hfeed, ofLines_lines_of_not_mem hfeed,
      ofLines_lines_of_not_mem hfeed, hline]
    refine List.map_congr_left fun f hf => ?_
    have hmoved := moved_of_mem_ofLine hfeed [] hf
    rw [List.append_nil] at hmoved
    rw [hmoved]
    rfl
termination_by text.length

theorem all_withReturns {text : Text} (h : '\r' ∉ text) :
    all (withReturns text) = (all text).map (moved text) :=
  ofLines_withReturns [] text h

end Fence

/-! ### Regions -/

theorem pathHint?_withReturns {preamble : Text} (h : '\r' ∉ preamble) :
    pathHint? (withReturns preamble) = pathHint? preamble := by
  rw [pathHint?, pathHint?, bareLines_withReturns h]

/-- The line of a path is found the same if the preamble begins behind a carriage return that is put
in front of its first line feed. -/
theorem pathHint?_drop_withReturns {preamble : Text} (h : '\r' ∉ preamble)
    (hhead : preamble = [] ∨ preamble.head? = some '\n') :
    pathHint? ((withReturns preamble).drop 1) = pathHint? preamble := by
  rcases hhead with rfl | hhead
  · rfl
  · obtain ⟨rest, rfl⟩ := List.head?_eq_some_iff.mp hhead
    have hrest : '\r' ∉ rest := fun hmem => h (List.mem_cons_of_mem _ hmem)
    have hfeed : ∀ t : Text, bareLines ('\n' :: t) = [] :: bareLines t := by
      intro t
      rw [bareLines, brokenLines, brokenLinesFrom_cons (fun h => absurd h (by decide)),
        if_pos (by decide), List.map_cons]
      rfl
    rw [withReturns_feed, List.drop_succ_cons, List.drop_zero, pathHint?, pathHint?, hfeed, hfeed,
      bareLines_withReturns hrest]

namespace Region

variable {text : Text}

theorem closer?_map (g : Fence → Fence) (hchar : ∀ f, (g f).char = f.char)
    (hlength : ∀ f, (g f).length = f.length) (hinfo : ∀ f, (g f).info = f.info)
    (hstart : ∀ f, (g f).atLineStart = f.atLineStart) (inner : Char × Nat)
    (outer : List (Char × Nat)) (fences : List Fence) :
    closer? inner outer (fences.map g) =
      (closer? inner outer fences).map (Prod.map g (List.map g)) := by
  have hopens : ∀ f, (g f).opensNested = f.opensNested := fun f => by
    rw [Fence.opensNested, Fence.opensNested, hinfo, hstart]
  have hcloses : ∀ f opener, (g f).closes opener = f.closes opener := fun f opener => by
    rw [Fence.closes, Fence.closes, hinfo, hchar, hlength]
  fun_induction closer? inner outer fences with
  | case1 inner outer => rfl
  | case2 inner outer f fences h ih =>
    simp only [List.map_cons, closer?, hopens, if_pos h, hchar, hlength]
    exact ih
  | case3 inner f fences h h' =>
    simp only [List.map_cons, closer?, hopens, if_neg h, hcloses, if_pos h']
    rfl
  | case4 inner f fences h h' next outer ih =>
    simp only [List.map_cons, closer?, hopens, if_neg h, hcloses, if_pos h']
    exact ih
  | case5 inner outer f fences h h' ih =>
    simp only [List.map_cons, closer?, hopens, if_neg h, hcloses, if_neg h']
    exact ih

theorem length_le_moved_lineEnd_iff {f : Fence} (h : f.StandsIn text) :
    (withReturns text).length ≤ (f.moved text).lineEnd ↔ text.length ≤ f.lineEnd := by
  have hstop := h.line.stop_le
  simp only [Fence.moved, movedChar]
  rcases h.line.ends with hend | hfeed
  · rw [hend, moved_length]
    split <;> omega
  · have hlt : f.lineEnd < text.length := (List.getElem?_eq_some_iff.mp hfeed).1
    have hmono := moved_mono text (show f.lineEnd + 1 ≤ text.length from hlt)
    rw [(moved_feed hfeed).1, moved_length] at hmono
    rw [if_pos hfeed]
    omega

theorem closer?_moved (inner : Char × Nat) (outer : List (Char × Nat)) (fences : List Fence) :
    closer? inner outer (fences.map (Fence.moved text)) =
      (closer? inner outer fences).map (Prod.map (Fence.moved text) (List.map (Fence.moved text))) :=
  closer?_map (Fence.moved text) (fun _ => rfl) (fun _ => rfl) (fun _ => rfl) (fun _ => rfl) inner outer fences

theorem moved_lineEnd_succ {f : Fence} (h : f.StandsIn text) (hend : f.lineEnd < text.length) :
    (f.moved text).lineEnd + 1 = Text.moved text (f.lineEnd + 1) := by
  have hfeed := h.line.ends.resolve_left (Nat.ne_of_lt hend)
  rw [Fence.moved, movedChar, if_pos hfeed, (moved_feed hfeed).1]

theorem codeStop_moved (hreturn : '\r' ∉ text) {closer : Fence} (h : closer.StandsIn text)
    (start : Nat) :
    codeStop (withReturns text) (Text.moved text start) (closer.moved text) =
      Text.moved text (codeStop text start closer) := by
  have hmax := fun i => ((moved_mono text).map_max (a := i) (b := start)).symm
  by_cases hline : closer.atLineStart = true
  · rcases h.line.begins with hzero | hfeed
    · have hmoved : Text.moved text 0 = 0 := rfl
      simp [codeStop, Fence.moved, hline, hzero, hmoved]
    · by_cases hpos : 0 < closer.lineStart
      · obtain ⟨hmoved, hcr, hlf⟩ := moved_feed hfeed
        have hsucc : closer.lineStart - 1 + 1 = closer.lineStart := by omega
        have hnone : ¬ (1 < closer.lineStart ∧ text[closer.lineStart - 2]? = some '\r') :=
          fun h => hreturn (List.mem_of_getElem? h.2)
        rw [hsucc] at hmoved
        have hfront : Text.moved text closer.lineStart - 1 =
            Text.moved text (closer.lineStart - 1) + 1 := by omega
        have hfront' : Text.moved text closer.lineStart - 2 =
            Text.moved text (closer.lineStart - 1) := by omega
        simp only [codeStop, Fence.moved, hline, Bool.not_true, Bool.false_eq_true, if_false]
        rw [if_pos ⟨by omega, by rw [hfront, hlf]⟩, if_pos ⟨by omega, by rw [hfront', hcr]⟩,
          if_pos ⟨hpos, hfeed⟩, if_neg hnone, hfront', hmax]
      · have hzero : closer.lineStart = 0 := by omega
        have hmoved : Text.moved text 0 = 0 := rfl
        simp [codeStop, Fence.moved, hline, hzero, hmoved]
  · simp only [codeStop, Fence.moved, hline, Bool.not_false, if_true]
    exact hmax _

/-- A region and the one that it becomes when the carriage returns are put in. -/
structure Returned (r r' : Region) : Prop where
  info_eq : r'.info = r.info
  code_eq : r'.code = withReturns r.code
  hint_eq : pathHint? r'.preamble = pathHint? r.preamble

theorem returned_between (hreturn : '\r' ∉ text) {floor floor' : Nat} {opener closer : Fence}
    (hopener : opener.StandsIn text) (hend : opener.lineEnd < text.length)
    (hcloser : closer.StandsIn text)
    (hfloor : floor' = Text.moved text floor ∨ floor' = movedChar text floor) :
    (between text floor opener closer).Returned
      (between (withReturns text) floor' (opener.moved text) (closer.moved text)) where
  info_eq := rfl
  code_eq := by
    simp only [between]
    rw [moved_lineEnd_succ hopener hend, codeStop_moved hreturn hcloser, slice_withReturns]
  hint_eq := by
    have hpreamble : '\r' ∉ slice text floor opener.lineStart := fun hmem =>
      hreturn (List.mem_of_mem_take (List.mem_of_mem_drop hmem))
    have hwhole := pathHint?_withReturns hpreamble
    simp only [between, Fence.moved]
    rw [movedChar] at hfloor
    by_cases hfeed : text[floor]? = some '\n'
    · rw [if_pos hfeed] at hfloor
      rcases hfloor with rfl | rfl
      · rw [slice_withReturns, hwhole]
      · have hdrop : slice (withReturns text) (Text.moved text floor + 1)
            (Text.moved text opener.lineStart) =
              (withReturns (slice text floor opener.lineStart)).drop 1 := by
          rw [← slice_withReturns, slice, slice, List.drop_drop]
        rw [hdrop, pathHint?_drop_withReturns hpreamble]
        by_cases hlt : floor < opener.lineStart
        · refine Or.inr ?_
          rw [slice, List.head?_drop, List.getElem?_take_of_lt hlt, hfeed]
        · refine Or.inl (List.drop_eq_nil_of_le ?_)
          rw [List.length_take]
          omega
    · rw [if_neg hfeed, or_self] at hfloor
      rw [hfloor, slice_withReturns, hwhole]

theorem forall₂_returned_ofFences (hreturn : '\r' ∉ text) {fences : List Fence} {floor floor' : Nat}
    (hstands : ∀ f ∈ fences, f.StandsIn text)
    (hfloor : floor' = Text.moved text floor ∨ floor' = movedChar text floor) :
    List.Forall₂ Returned (ofFences text floor fences)
      (ofFences (withReturns text) floor' (fences.map (Fence.moved text))) := by
  fun_induction ofFences text floor fences generalizing floor' with
  | case1 floor =>
    rw [List.map_nil, ofFences]
    exact .nil
  | case2 floor opener fences hskip ih =>
    have hends := length_le_moved_lineEnd_iff (hstands opener (by simp))
    rw [List.map_cons, ofFences, if_pos (by rw [decide_eq_decide.mpr hends]; exact hskip)]
    exact ih (fun f hf => hstands f (by simp [hf])) hfloor
  | case3 floor opener fences hopens hnone =>
    have hends := length_le_moved_lineEnd_iff (hstands opener (by simp))
    have hnone' : closer? ((opener.moved text).char, (opener.moved text).length) []
        (fences.map (Fence.moved text)) = none := by
      rw [closer?_moved]
      exact congrArg _ hnone
    rw [List.map_cons, ofFences, if_neg (by rw [decide_eq_decide.mpr hends]; exact hopens)]
    split
    · exact .nil
    next hsome =>
      rw [hnone'] at hsome
      cases hsome
  | case4 floor opener fences hopens closer rest hcloser ih =>
    obtain ⟨front, rfl⟩ := exists_of_closer? hcloser
    have hopener := hstands opener (by simp)
    have hcloses := hstands closer (by simp)
    simp only [Bool.or_eq_true, Bool.not_eq_true', decide_eq_true_eq, not_or,
      Bool.not_eq_false, not_le] at hopens
    obtain ⟨hstart, hend⟩ := hopens
    have hend' := not_le.mp fun hle => not_le.mpr hend ((length_le_moved_lineEnd_iff hopener).mp hle)
    have hcloser' : closer? ((opener.moved text).char, (opener.moved text).length) []
        ((front ++ closer :: rest).map (Fence.moved text)) =
          some (closer.moved text, rest.map (Fence.moved text)) := by
      rw [closer?_moved]
      exact congrArg _ hcloser
    have hstart' : (opener.moved text).atLineStart = true := hstart
    rw [List.map_cons, ofFences_cons hstart' hend' hcloser']
    exact .cons (returned_between hreturn hopener hend hcloses hfloor)
      (ih (fun f hf => hstands f (by simp [hf])) (Or.inr rfl))

theorem forall₂_returned_all (hreturn : '\r' ∉ text) :
    List.Forall₂ Returned (all text) (all (withReturns text)) := by
  rw [all, all, Fence.all_withReturns hreturn]
  exact forall₂_returned_ofFences hreturn (fun f hf => Fence.standsIn_of_mem_all hf) (Or.inl rfl)

theorem Returned.toOption_ofRegion {r r' : Region} (h : r.Returned r') :
    (Block.ofRegion r').toOption =
      (Block.ofRegion r).toOption.map fun b => { b with code := withReturns b.code } := by
  rw [Block.ofRegion, Block.ofRegion, h.hint_eq]
  cases pathHint? r.preamble with
  | none => rfl
  | some hint =>
    by_cases hlooks : looksLikePath hint = true
    · simp [hlooks, Except.toOption, h.info_eq, h.code_eq]
    · simp [hlooks, Except.toOption]

end Region

theorem Region.filterMap_toOption_of_returned {regions regions' : List Region}
    (h : List.Forall₂ Region.Returned regions regions') :
    (regions'.map Block.ofRegion).filterMap Except.toOption =
      ((regions.map Block.ofRegion).filterMap Except.toOption).map fun b =>
        { b with code := withReturns b.code } := by
  induction h with
  | nil => rfl
  | @cons r r' regions regions' hregion _ ih =>
    have hfirst := hregion.toOption_ofRegion
    rw [List.map_cons, List.map_cons]
    cases hread : (Block.ofRegion r).toOption with
    | none =>
      rw [hread, Option.map_none] at hfirst
      rw [List.filterMap_cons_none hfirst, List.filterMap_cons_none hread, ih]
    | some b =>
      rw [hread, Option.map_some] at hfirst
      rw [List.filterMap_cons_some hfirst, List.filterMap_cons_some hread, ih, List.map_cons]

/-- When a carriage return is put in front of every line feed, the code blocks keep their paths and
languages, and their codes change in the ends of their lines only. -/
theorem blocks_withReturns {text : Text} (h : '\r' ∉ text) :
    blocks (withReturns text) =
      (blocks text).map fun b => { b with code := withReturns b.code } :=
  Region.filterMap_toOption_of_returned (Region.forall₂_returned_all h)

/-- An empty code, one that is an empty line, one of which the closing fence stands behind text, and
a text that goes on behind a region. -/
theorem blocks_withReturns_of_odd_codes :
    let text : Text := "a.py\n```py\n```\n\nb.py\n~~~\n\n\n~~~ \nc/d\n```\nx\ny```\nend"
    '\r' ∉ text ∧
      blocks (withReturns text) =
        (blocks text).map (fun b => { b with code := withReturns b.code }) ∧
      blocks (withReturns text) =
        [⟨"a.py", "py", []⟩, ⟨"b.py", [], "\r\n"⟩, ⟨"c/d", [], "x\r\ny"⟩] :=
  ⟨by decide +kernel, blocks_withReturns (by decide +kernel), by decide +kernel⟩

end CodeGraft
