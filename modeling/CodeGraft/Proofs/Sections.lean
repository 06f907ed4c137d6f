import CodeGraft.Proofs.Placement
import Mathlib.Data.List.TakeWhile

/-!
# How a section spreads

A section spreads from the line that mentions a declaration, upwards and downwards, until it comes
to a line that it starts behind or ends before. Said in this way, a section of some lines is one
among other lines too, if these keep their distance. So code that takes the place of a section can
be found again where it stands.
-/

namespace CodeGraft

open Text

namespace Text

def leading (ls : List Text) : Text := ls.flatMap (· ++ ['\n'])

def trailing (ls : List Text) : Text := ls.flatMap ('\n' :: ·)

theorem trailing_cons (line : Text) (ls : List Text) :
    trailing (line :: ls) = '\n' :: (line ++ trailing ls) := by
  rw [trailing, List.flatMap_cons]
  rfl

theorem length_leading (ls : List Text) : (leading ls).length = linesLength ls := by
  induction ls with
  | nil => rfl
  | cons line ls ih =>
    rw [leading, List.flatMap_cons, ← leading, List.length_append, ih, linesLength,
      List.length_append, List.length_singleton]

theorem lines_leading_append {ls : List Text} (h : ∀ line ∈ ls, '\n' ∉ line) (text : Text) :
    lines (leading ls ++ text) = ls ++ lines text := by
  induction ls with
  | nil => rfl
  | cons line ls ih =>
    obtain ⟨hline, hls⟩ := List.forall_mem_cons.mp h
    have hsplit : leading (line :: ls) ++ text = line ++ '\n' :: (leading ls ++ text) := by
      simp [leading]
    rw [hsplit, lines_append_of_not_mem hline, ih hls, List.cons_append]

theorem lines_append_trailing {ls : List Text} (h : ∀ line ∈ ls, '\n' ∉ line) (text : Text) :
    lines (text ++ trailing ls) = lines text ++ ls := by
  induction ls generalizing text with
  | nil => simp [trailing]
  | cons line ls ih =>
    obtain ⟨hline, hls⟩ := List.forall_mem_cons.mp h
    have hsplit : text ++ trailing (line :: ls) = text ++ '\n' :: (line ++ trailing ls) := by
      simp [trailing]
    rw [hsplit, lines_append, ih hls, lines_of_not_mem hline, List.singleton_append]

theorem unlines_append {ls : List Text} (above : List Text) (h : ls ≠ []) :
    unlines (above ++ ls) = leading above ++ unlines ls := by
  induction above with
  | nil => rfl
  | cons line above ih =>
    rw [List.cons_append, unlines_cons line (by simp [h]), ih]
    simp [leading]

theorem unlines_cons_eq (line : Text) (ls : List Text) :
    unlines (line :: ls) = line ++ trailing ls := by
  induction ls generalizing line with
  | nil => simp [unlines, joinWith, trailing]
  | cons next ls ih =>
    rw [unlines_cons line (by simp), ih]
    simp [trailing]

theorem unlines_append_trailing {ls : List Text} (below : List Text) (h : ls ≠ []) :
    unlines (ls ++ below) = unlines ls ++ trailing below := by
  obtain ⟨line, ls, rfl⟩ := List.exists_cons_of_ne_nil h
  rw [List.cons_append, unlines_cons_eq, unlines_cons_eq, trailing, List.flatMap_append,
    List.append_assoc]
  rfl

theorem exists_lines_append (text : Text) :
    ∃ front last, ∀ a, '\n' ∉ a → lines (text ++ a) = front ++ [last ++ a] := by
  have hne : lines text ≠ [] := splitOn_ne_nil _ _
  have hsplit := List.dropLast_concat_getLast hne
  refine ⟨(lines text).dropLast, (lines text).getLast hne, fun a ha => ?_⟩
  have hfeed : ∀ line ∈ lines text, '\n' ∉ line := fun line hline => not_mem_of_mem_splitOn hline
  have hlast : '\n' ∉ (lines text).getLast hne ++ a := by
    simp [ha, hfeed _ (List.getLast_mem hne)]
  have htext : text ++ a =
      leading (lines text).dropLast ++ ((lines text).getLast hne ++ a) := by
    conv => lhs; rw [← unlines_lines text, ← hsplit, unlines_append _ (by simp)]
    rw [List.append_assoc]
    rfl
  rw [htext, lines_leading_append fun line hline =>
      hfeed line ((List.dropLast_sublist _).subset hline),
    lines_of_not_mem hlast]

theorem lines_unlines {ls : List Text} (hne : ls ≠ []) (h : ∀ line ∈ ls, '\n' ∉ line) :
    lines (unlines ls) = ls := by
  obtain ⟨line, ls, rfl⟩ := List.exists_cons_of_ne_nil hne
  obtain ⟨hline, hls⟩ := List.forall_mem_cons.mp h
  rw [unlines_cons_eq, lines_append_trailing hls, lines_of_not_mem hline, List.singleton_append]

/-- What stands in front of the first line feed and the lines behind it can be read off a text. -/
theorem append_trailing_inj {a b : Text} {ls ms : List Text} (ha : '\n' ∉ a) (hb : '\n' ∉ b)
    (hls : ∀ line ∈ ls, '\n' ∉ line) (hms : ∀ line ∈ ms, '\n' ∉ line)
    (h : a ++ trailing ls = b ++ trailing ms) : a = b ∧ ls = ms := by
  have hlines := congrArg lines h
  rw [lines_append_trailing hls, lines_append_trailing hms, lines_of_not_mem ha,
    lines_of_not_mem hb] at hlines
  exact List.cons.inj hlines

end Text

/-! ### Spreading -/

theorem drop_takeWhile {α : Type} (p : α → Bool) (l : List α) :
    l.drop (l.takeWhile p).length = l.dropWhile p := by
  have hdrop := List.prefix_iff_eq_append.mp (List.takeWhile_prefix p (l := l))
  exact List.append_cancel_left (hdrop.trans List.takeWhile_append_dropWhile.symm)

def Bounds (test : Text → Bool) (ls : List Text) : Prop := ∀ line ∈ ls.head?, test line = true

theorem bounds_dropWhile (test : Text → Bool) (ls : List Text) :
    Bounds test (ls.dropWhile (!test ·)) := by
  intro line hline
  have hnot := List.head?_dropWhile_not (!test ·) ls
  rw [Option.mem_def.mp hline] at hnot
  simpa using hnot

theorem refused_of_mem_takeWhile (test : Text → Bool) (ls : List Text) :
    ∀ line ∈ ls.takeWhile (!test ·), test line = false := by
  intro line hline
  simpa using List.mem_takeWhile_imp hline

theorem spread_append {test : Text → Bool} {front rest : List Text}
    (hfront : ∀ line ∈ front, test line = false) (hrest : Bounds test rest) :
    (front ++ rest).takeWhile (!test ·) = front ∧ (front ++ rest).dropWhile (!test ·) = rest := by
  have hall : ∀ line ∈ front, (!test line) = true := by simpa using hfront
  rw [List.takeWhile_append_of_pos hall, List.dropWhile_append_of_pos hall]
  cases rest with
  | nil => simp
  | cons line rest => simp [hrest line rfl]

/-- A section that spreads from the line `hit` to those above and below it, and to a lone closing
brace if it is left open. -/
structure Sectioned.Spreads (ds : List (Text × Text)) (s : Sectioned) (up : List Text) (hit : Text)
    (down closing : List Text) : Prop where
  body_eq : s.body = up ++ hit :: (down ++ closing)
  lead_eq : s.lead = up.length
  unmentioned : ∀ line ∈ s.above ++ up, mentionsAny ds line = false
  mentioned : mentionsAny ds hit = true
  up_open : ∀ line ∈ up, startsSection line = false
  above_bounds : Bounds startsSection s.above.reverse
  down_open : ∀ line ∈ down, endsSection line = false
  below_bounds : Bounds endsSection (closing ++ s.below)
  closed : (closing = [] ∧ ¬(0 < braceDepth (up ++ hit :: down) ∧
      ∃ line ∈ s.below.head?, isLoneCloser line = true)) ∨
    ∃ closer, closing = [closer] ∧ 0 < braceDepth (up ++ hit :: down) ∧ isLoneCloser closer = true

variable {ds : List (Text × Text)} {ls : List Text} {s : Sectioned}

theorem exists_spreads_of_sectionAround? (h : sectionAround? ds ls = some s) :
    ∃ up hit down closing, s.Spreads ds up hit down closing := by
  have hlead := refused_of_mem_takeWhile (mentionsAny ds) ls
  have hbounds := bounds_dropWhile (mentionsAny ds) ls
  unfold sectionAround? at h
  split at h
  next => cases h
  next hit below hbelow =>
    rw [hbelow] at hbounds
    have hmentioned : mentionsAny ds hit = true := hbounds hit rfl
    clear hbelow hbounds
    generalize ls.takeWhile (!mentionsAny ds ·) = lead at hlead h
    have hup := refused_of_mem_takeWhile startsSection lead.reverse
    have hdown := refused_of_mem_takeWhile endsSection below
    have habove := bounds_dropWhile startsSection lead.reverse
    have hrest := bounds_dropWhile endsSection below
    have hsplit := List.takeWhile_append_dropWhile (p := (!startsSection ·)) (l := lead.reverse)
    simp only [List.length_reverse, drop_takeWhile] at h
    generalize below.dropWhile (!endsSection ·) = rest at hrest h
    generalize below.takeWhile (!endsSection ·) = down at hdown h
    generalize lead.reverse.dropWhile (!startsSection ·) = above at habove hsplit h
    generalize lead.reverse.takeWhile (!startsSection ·) = up at hup hsplit h
    obtain rfl : lead = above.reverse ++ up.reverse := by
      rw [← List.reverse_append, hsplit, List.reverse_reverse]
    have hspreads (closing rest' : List Text) (hrest' : rest = closing ++ rest')
        (hclosed : (closing = [] ∧ ¬(0 < braceDepth (up.reverse ++ hit :: down) ∧
            ∃ line ∈ rest'.head?, isLoneCloser line = true)) ∨
          ∃ closer, closing = [closer] ∧ 0 < braceDepth (up.reverse ++ hit :: down) ∧
            isLoneCloser closer = true) :
        Sectioned.Spreads ds
          ⟨above.reverse, up.reverse ++ hit :: (down ++ closing), rest', up.reverse.length⟩
          up.reverse hit down closing :=
      ⟨rfl, rfl, hlead, hmentioned, by simpa using hup, by simpa using habove, hdown,
        hrest' ▸ hrest, hclosed⟩
    split at h
    next closer rest =>
      split at h
      next hcloses =>
        cases h
        exact ⟨_, hit, down, [closer], by
          simpa using hspreads [closer] rest rfl (.inr ⟨closer, rfl, hcloses⟩)⟩
      next hopen =>
        cases h
        exact ⟨_, hit, down, [], by
          simpa using hspreads [] (closer :: rest) rfl (.inl ⟨rfl, by simpa using hopen⟩)⟩
    next =>
      cases h
      exact ⟨_, hit, down, [], by simpa using hspreads [] [] rfl (.inl ⟨rfl, by simp⟩)⟩

theorem sectionAround?_of_spreads {up : List Text} {hit : Text} {down closing : List Text}
    (h : s.Spreads ds up hit down closing) :
    sectionAround? ds (s.above ++ s.body ++ s.below) = some s := by
  obtain ⟨above, body, below, lead⟩ := s
  obtain ⟨rfl, rfl, hlead, hmentioned, hup, habove, hdown, hbelow, hclosed⟩ := h
  dsimp only at *
  have hall : above ++ (up ++ hit :: (down ++ closing)) ++ below =
      (above ++ up) ++ hit :: (down ++ (closing ++ below)) := by simp
  have hhit : Bounds (mentionsAny ds) (hit :: (down ++ (closing ++ below))) := by
    simpa [Bounds] using hmentioned
  have hup' : ∀ line ∈ up.reverse, startsSection line = false := by simpa using hup
  obtain ⟨htake, hdrop⟩ := spread_append hlead hhit
  obtain ⟨htakeUp, -⟩ := spread_append hup' habove
  obtain ⟨htakeDown, -⟩ := spread_append hdown hbelow
  have hdropUp : (up.reverse ++ above.reverse).drop up.length = above.reverse :=
    List.drop_left' (List.length_reverse ..)
  simp only [sectionAround?, hall, htake, hdrop, List.reverse_append, htakeUp, htakeDown,
    List.reverse_reverse, List.drop_left, hdropUp]
  rcases hclosed with ⟨rfl, hopen⟩ | ⟨closer, rfl, hcloses⟩
  · cases below with
    | nil => simp
    | cons line below =>
      have hopen' : ¬(0 < braceDepth (up ++ hit :: down) ∧ isLoneCloser line = true) := by
        simpa using hopen
      simp [hopen']
  · simp [hcloses]

theorem sectionAround?_isSome (h : ∃ line ∈ ls, mentionsAny ds line = true) :
    (sectionAround? ds ls).isSome = true := by
  obtain ⟨line, hline, hmentioned⟩ := h
  have hne : ls.dropWhile (!mentionsAny ds ·) ≠ [] := by
    intro hnil
    simpa [hmentioned] using List.dropWhile_eq_nil_iff.mp hnil line hline
  unfold sectionAround?
  split
  next hnil => exact absurd hnil hne
  next =>
    dsimp only
    split
    next => split <;> rfl
    next => rfl

namespace Sectioned

/-- Whether a section ends with the brace that closes a block of its own. -/
def Closed (s : Sectioned) : Prop :=
  s.lead + 1 < s.body.length ∧ 0 < braceDepth s.body.dropLast ∧
    ∃ line ∈ s.body.getLast?, isLoneCloser line = true

/-- Whether a section goes no further when other lines follow it. -/
def EndsBefore (s : Sectioned) (below : List Text) : Prop :=
  s.Closed ∨ Bounds endsSection below ∧
    ¬(0 < braceDepth s.body ∧ ∃ line ∈ below.head?, isLoneCloser line = true)

end Sectioned

theorem endsSection_of_isLoneCloser {line : Text} (h : isLoneCloser line = true) :
    endsSection line = true := by
  simp [endsSection, h]

theorem Sectioned.Spreads.endsBefore {up : List Text} {hit : Text} {down closing : List Text}
    (h : s.Spreads ds up hit down closing) : s.EndsBefore s.below := by
  rcases h.closed with ⟨rfl, hopen⟩ | ⟨closer, rfl, hdepth, hcloser⟩
  · refine .inr ⟨h.below_bounds, ?_⟩
    rw [h.body_eq, List.append_nil]
    exact hopen
  · have hbody : s.body = (up ++ hit :: down) ++ [closer] := by simp [h.body_eq]
    refine .inl ⟨?_, ?_, closer, ?_, hcloser⟩
    · simp [hbody, h.lead_eq]
    · rwa [hbody, List.dropLast_concat]
    · rw [hbody, List.getLast?_concat]
      rfl

theorem Sectioned.Spreads.closing_eq {up : List Text} {hit : Text} {down closing : List Text}
    (h : s.Spreads ds up hit down closing) (hclosed : s.Closed) :
    ∃ closer, closing = [closer] ∧ 0 < braceDepth (up ++ hit :: down) ∧
      isLoneCloser closer = true := by
  rcases h.closed with ⟨rfl, -⟩ | hcloses
  · obtain ⟨hlength, -, line, hlast, hline⟩ := hclosed
    rw [h.body_eq, h.lead_eq] at hlength
    have hdown : down ≠ [] := by
      rintro rfl
      simp at hlength
    have hbody : s.body = (up ++ [hit]) ++ down := by simp [h.body_eq]
    rw [hbody, List.getLast?_append_of_ne_nil _ hdown] at hlast
    have hopen := h.down_open line (List.mem_of_getLast? hlast)
    rw [endsSection_of_isLoneCloser hline] at hopen
    cases hopen
  · exact hcloses

theorem Sectioned.Spreads.among {up : List Text} {hit : Text} {down closing : List Text}
    (h : s.Spreads ds up hit down closing) {above below : List Text}
    (habove : ∀ line ∈ above ++ up, mentionsAny ds line = false)
    (hbounds : Bounds startsSection above.reverse) (hends : s.EndsBefore below) :
    Spreads ds ⟨above, s.body, below, s.lead⟩ up hit down closing := by
  refine ⟨h.body_eq, h.lead_eq, habove, h.mentioned, h.up_open, hbounds, h.down_open, ?_, ?_⟩
  · rcases hends with hclosed | ⟨hbelow, -⟩
    · obtain ⟨closer, rfl, -, hcloser⟩ := h.closing_eq hclosed
      simpa [Bounds] using endsSection_of_isLoneCloser hcloser
    · rcases h.closed with ⟨rfl, -⟩ | ⟨closer, rfl, -, hcloser⟩
      · exact hbelow
      · simpa [Bounds] using endsSection_of_isLoneCloser hcloser
  · rcases hends with hclosed | ⟨-, hopen⟩
    · exact .inr (h.closing_eq hclosed)
    · rcases h.closed with ⟨rfl, -⟩ | hcloses
      · rw [h.body_eq, List.append_nil] at hopen
        exact .inl ⟨rfl, hopen⟩
      · exact .inr hcloses

/-- All of some lines are a section of the lines around them exactly if they are one alone, and end
before what follows. -/
theorem sectionAround?_among_iff {above mid below : List Text} {lead : Nat}
    (habove : ∀ line ∈ above, mentionsAny ds line = false)
    (hbounds : Bounds startsSection above.reverse) :
    sectionAround? ds (above ++ mid ++ below) = some ⟨above, mid, below, lead⟩ ↔
      sectionAround? ds mid = some ⟨[], mid, [], lead⟩ ∧
        Sectioned.EndsBefore ⟨[], mid, [], lead⟩ below := by
  constructor
  · intro h
    obtain ⟨up, hit, down, closing, hs⟩ := exists_spreads_of_sectionAround? h
    have hup : ∀ line ∈ [] ++ up, mentionsAny ds line = false := fun line hline =>
      hs.unmentioned line (List.mem_append_right _ hline)
    have halone : Sectioned.Spreads ds ⟨[], mid, [], lead⟩ up hit down closing :=
      hs.among hup (by simp [Bounds]) (.inr (by simp [Bounds]))
    exact ⟨by simpa using sectionAround?_of_spreads halone, hs.endsBefore⟩
  · rintro ⟨h, hends⟩
    obtain ⟨up, hit, down, closing, hs⟩ := exists_spreads_of_sectionAround? h
    refine sectionAround?_of_spreads (hs.among ?_ hbounds hends)
    intro line hline
    rcases List.mem_append.mp hline with hline | hline
    · exact habove line hline
    · exact hs.unmentioned line hline

namespace Sectioned

def returnsOf (line : Text) : Text := (line.reverse.takeWhile (· = '\r')).reverse

theorem withoutReturns_append_returnsOf (line : Text) :
    withoutReturns line ++ returnsOf line = line := by
  rw [withoutReturns, returnsOf, ← List.reverse_append, List.takeWhile_append_dropWhile,
    List.reverse_reverse]

/-- The text of a section; carriage returns at its end do not belong to it. -/
def text (s : Sectioned) : Text :=
  leading s.body.dropLast ++ withoutReturns (s.body.getLast?.getD [])

def returns (s : Sectioned) : Text := returnsOf (s.body.getLast?.getD [])

theorem not_mem_returns (s : Sectioned) : '\n' ∉ s.returns := by
  intro h
  have hreturn := List.mem_takeWhile_imp (List.mem_reverse.mp h)
  simp at hreturn

theorem stop_eq (s : Sectioned) : s.stop = s.start + s.text.length := by
  rw [stop, text, List.length_append, length_leading, Nat.add_assoc]

theorem text_append_returns (h : s.body ≠ []) : s.text ++ s.returns = unlines s.body := by
  have hlast : s.body.getLast?.getD [] = s.body.getLast h := by
    rw [List.getLast?_eq_some_getLast h, Option.getD_some]
  conv => rhs; rw [← List.dropLast_concat_getLast h, unlines_append _ (by simp)]
  rw [text, returns, List.append_assoc, withoutReturns_append_returnsOf, hlast]
  rfl

theorem text_around {all : Text} (h : lines all = s.above ++ s.body ++ s.below)
    (hbody : s.body ≠ []) :
    all = leading s.above ++ (s.text ++ (s.returns ++ trailing s.below)) := by
  rw [← unlines_lines all, h, unlines_append_trailing _ (by simp [hbody]),
    unlines_append _ hbody, ← text_append_returns hbody]
  simp only [List.append_assoc]

theorem lines_text_append_returns {all : Text} (h : lines all = s.above ++ s.body ++ s.below)
    (hbody : s.body ≠ []) : lines (s.text ++ s.returns) = s.body := by
  rw [text_append_returns hbody]
  refine lines_unlines hbody fun line hline => ?_
  have hmem : line ∈ lines all := by simp [h, hline]
  exact not_mem_of_mem_splitOn hmem

theorem slice_eq_text {all : Text} (h : lines all = s.above ++ s.body ++ s.below)
    (hbody : s.body ≠ []) : slice all s.start s.stop = s.text := by
  rw [stop_eq, start, ← length_leading, text_around h hbody]
  exact slice_append_append ..

/-- The text around a section, with other code in place of its text. -/
def patched (s : Sectioned) (code : Text) : Text :=
  leading s.above ++ (code ++ (s.returns ++ trailing s.below))

theorem patched_eq {all : Text} (h : lines all = s.above ++ s.body ++ s.below)
    (hbody : s.body ≠ []) (code : Text) :
    s.patched code = slice all 0 s.start ++ code ++ all.drop s.stop := by
  have hall := text_around h hbody
  have hstart : slice all 0 s.start = leading s.above := by
    rw [slice, List.drop_zero, hall, start, ← length_leading, List.take_left]
  have hstop : all.drop s.stop = s.returns ++ trailing s.below := by
    rw [stop_eq, start, ← length_leading, hall, ← List.length_append, ← List.append_assoc,
      List.drop_left]
  rw [hstart, hstop, patched, List.append_assoc]

end Sectioned

/-! ### Code that is found where it was put -/

section

variable {above below : List Text} {code a : Text} {own again : Sectioned}
  {up down closing up' down' closing' : List Text} {hit hit' : Text}

theorem Sectioned.Spreads.takeWhile_eq (h : s.Spreads ds up hit down closing) (rest : List Text) :
    (s.above ++ s.body ++ rest).takeWhile (!mentionsAny ds ·) = s.above ++ up := by
  have hhit : Bounds (mentionsAny ds) (hit :: (down ++ closing ++ rest)) := by
    simpa [Bounds] using h.mentioned
  rw [← (spread_append h.unmentioned hhit).1, h.body_eq]
  simp

theorem Sectioned.Spreads.exists_above (hown : own.Spreads ds up hit down closing)
    (hagain : again.Spreads ds up' hit' down' closing')
    (habove : ∀ line ∈ above, mentionsAny ds line = false)
    (hbounds : Bounds startsSection above.reverse)
    (h : above ++ (own.above ++ own.body ++ own.below) ++ below =
      again.above ++ again.body ++ again.below) :
    ∃ extra, again.above = above ++ extra ∧ own.above ++ up = extra ++ up' := by
  have hlead : above ++ (own.above ++ up) = again.above ++ up' := by
    have hnot : ∀ line ∈ above, (!mentionsAny ds line) = true := by simpa using habove
    rw [← hagain.takeWhile_eq again.below, ← h, ← hown.takeWhile_eq (own.below ++ below),
      List.append_assoc above, List.takeWhile_append_of_pos hnot]
    simp only [List.append_assoc]
  rcases List.append_eq_append_iff.mp hlead with ⟨extra, heq, hup⟩ | ⟨extra, heq, hup⟩
  · exact ⟨extra, heq, hup⟩
  · -- the last of the lines above is one that a section starts behind, so it is not in `up'`
    rcases List.eq_nil_or_concat extra with rfl | ⟨front, line, rfl⟩
    · exact ⟨[], by simpa using heq.symm, by simpa using hup.symm⟩
    · have hstarts : startsSection line = true := hbounds line (by simp [heq])
      have hopen := hagain.up_open line (by simp [hup])
      rw [hstarts] at hopen
      cases hopen

/-- A section with the text of the code cannot begin within the code: the line that it is found by
would stand in the code above the line that is the first there to mention a declaration. -/
theorem Sectioned.Spreads.eq_nil_of_body_eq (hown : own.Spreads ds up hit down closing)
    (hagain : again.Spreads ds up' hit' down' closing')
    {front extra : List Text} {last last' : Text}
    (h : front ++ [last] = own.above ++ own.body ++ own.below)
    (hbody : again.body = front ++ [last']) (hup : own.above ++ up = extra ++ up') :
    extra = [] := by
  by_contra hne
  have hextra := List.length_pos_iff.mpr hne
  have hsplit : front ++ [last] = (extra ++ up') ++ hit :: (down ++ closing ++ own.below) := by
    rw [h, ← hup, hown.body_eq]
    simp
  have hlength := congrArg List.length hsplit
  simp only [List.length_append, List.length_cons, List.length_nil] at hlength
  have hfront : up'.length < front.length := by omega
  have hhit : front[up'.length]? = some hit' := by
    rw [← List.getElem?_append_left hfront, ← hbody, hagain.body_eq]
    simp
  have hlead : hit' ∈ extra ++ up' := by
    refine List.mem_of_getElem? (i := up'.length) ?_
    rw [← hhit, ← List.getElem?_append_left hfront, hsplit]
    exact (List.getElem?_append_left (by simp; omega)).symm
  have hnot := hown.unmentioned hit' (hup ▸ hlead)
  rw [hagain.mentioned] at hnot
  cases hnot

variable {existing newCode : Text} {sec : Sectioned}

theorem sectionFor?_lines (h : sectionFor? existing newCode = some sec) :
    lines existing = sec.above ++ sec.body ++ sec.below ∧ sec.body ≠ [] :=
  sectionAround?_spec h

theorem Sectioned.eq_whole_of_bounds (h : sectionFor? (newCode ++ a) newCode = some own)
    (ha : '\n' ∉ a) (hstart : own.start = 0) (hstop : own.stop = newCode.length) :
    own = ⟨[], lines (newCode ++ a), [], own.lead⟩ ∧ own.text = newCode := by
  obtain ⟨hlines, hbody⟩ := sectionFor?_lines h
  have habove : own.above = [] := by
    cases hcases : own.above with
    | nil => rfl
    | cons line above => simp [start, hcases, linesLength] at hstart
  have hsplit := text_around hlines hbody
  rw [habove] at hsplit
  rw [stop_eq, hstart, Nat.zero_add] at hstop
  obtain ⟨htext, hreturns⟩ := List.append_inj (by simpa [leading] using hsplit) hstop.symm
  have hbelow : own.below = [] := by
    cases hcases : own.below with
    | nil => rfl
    | cons line below => simp [hreturns, hcases, trailing] at ha
  have hmid : lines (newCode ++ a) = own.body := by simp [hlines, habove, hbelow]
  have hfields : own = ⟨own.above, own.body, own.below, own.lead⟩ := rfl
  rw [habove, hbelow, ← hmid] at hfields
  exact ⟨hfields, htext.symm⟩

theorem not_mem_of_sectionFor? (h : sectionFor? existing newCode = some sec) :
    ∀ line ∈ sec.above ++ sec.body ++ sec.below, '\n' ∉ line := by
  intro line hline
  rw [← (sectionFor?_lines h).1] at hline
  exact not_mem_of_mem_splitOn hline

theorem lines_patched (h : sectionFor? existing newCode = some sec) (code : Text) :
    lines (sec.patched code) = sec.above ++ lines (code ++ sec.returns) ++ sec.below := by
  have hfeed := not_mem_of_sectionFor? h
  rw [Sectioned.patched, lines_leading_append fun line hline => hfeed line (by simp [hline]),
    ← List.append_assoc code, lines_append_trailing fun line hline => hfeed line (by simp [hline]),
    List.append_assoc]

theorem exists_section_of_patched (hsec : sectionFor? existing newCode = some sec)
    (hown : sectionFor? (newCode ++ sec.returns) newCode = some own) :
    ∃ again, sectionFor? (sec.patched newCode) newCode = some again := by
  obtain ⟨hlines, -⟩ := sectionFor?_lines hown
  obtain ⟨up, hit, down, closing, hs⟩ := exists_spreads_of_sectionAround? hown
  refine Option.isSome_iff_exists.mp (sectionAround?_isSome ⟨hit, ?_, hs.mentioned⟩)
  rw [lines_patched hsec, hlines, hs.body_eq]
  simp

/-- A section with the text of the code that took the place of a section is where that code
stands. -/
theorem eq_of_text_of_patched (hsec : sectionFor? existing newCode = some sec)
    (hown : sectionFor? (newCode ++ sec.returns) newCode = some own)
    (hagain : sectionFor? (sec.patched newCode) newCode = some again)
    (htext : again.text = newCode) :
    again = ⟨sec.above, lines (newCode ++ sec.returns), sec.below, again.lead⟩ := by
  obtain ⟨hlines, hbody⟩ := sectionFor?_lines hagain
  obtain ⟨hlinesOwn, -⟩ := sectionFor?_lines hown
  obtain ⟨up, hit, down, closing, hs⟩ := exists_spreads_of_sectionAround? hsec
  obtain ⟨upOwn, hitOwn, downOwn, closingOwn, hsOwn⟩ := exists_spreads_of_sectionAround? hown
  obtain ⟨upAgain, hitAgain, downAgain, closingAgain, hsAgain⟩ :=
    exists_spreads_of_sectionAround? hagain
  have hbody' : lines (newCode ++ again.returns) = again.body := by
    rw [← htext, Sectioned.lines_text_append_returns hlines hbody]
  have habove : again.above = sec.above := by
    have hall := hlines
    rw [lines_patched hsec, hlinesOwn] at hall
    obtain ⟨extra, hextra, hup⟩ := hsOwn.exists_above hsAgain
      (fun line hline => hs.unmentioned line (List.mem_append_left _ hline)) hs.above_bounds hall
    obtain ⟨front, last, hfront⟩ := exists_lines_append newCode
    rw [hfront _ sec.not_mem_returns] at hlinesOwn
    rw [hfront _ again.not_mem_returns] at hbody'
    rw [hextra, hsOwn.eq_nil_of_body_eq hsAgain hlinesOwn hbody'.symm hup, List.append_nil]
  have hsplit := Sectioned.text_around hlines hbody
  rw [Sectioned.patched, habove, htext] at hsplit
  obtain ⟨hreturns, hbelow⟩ := append_trailing_inj sec.not_mem_returns again.not_mem_returns
    (fun line hline => not_mem_of_sectionFor? hsec line (by simp [hline]))
    (fun line hline => not_mem_of_sectionFor? hagain line (by simp [hline]))
    (List.append_cancel_left (List.append_cancel_left hsplit))
  rw [hreturns, hbody', hbelow, ← habove]

/-- Code in place of a section is found again where it stands exactly if its own declarations lead
to all of it, and its section then ends before the lines below. -/
theorem text_eq_iff_of_patched (hsec : sectionFor? existing newCode = some sec)
    (hown : sectionFor? (newCode ++ sec.returns) newCode = some own)
    (hagain : sectionFor? (sec.patched newCode) newCode = some again) :
    again.text = newCode ↔
      own.start = 0 ∧ own.stop = newCode.length ∧ own.EndsBefore sec.below := by
  obtain ⟨up, hit, down, closing, hs⟩ := exists_spreads_of_sectionAround? hsec
  have habove : ∀ line ∈ sec.above, mentionsAny (declarations newCode) line = false :=
    fun line hline => hs.unmentioned line (List.mem_append_left _ hline)
  constructor
  · intro htext
    have hwhole := eq_of_text_of_patched hsec hown hagain htext
    have htextOwn :
        Sectioned.text ⟨[], lines (newCode ++ sec.returns), [], again.lead⟩ = newCode := by
      rw [hwhole] at htext
      exact htext
    have hfound := hagain
    rw [sectionFor?, lines_patched hsec, hwhole,
      sectionAround?_among_iff habove hs.above_bounds] at hfound
    obtain rfl := Option.some.inj (hown.symm.trans hfound.1)
    refine ⟨rfl, ?_, hfound.2⟩
    rw [Sectioned.stop_eq, htextOwn]
    exact Nat.zero_add _
  · rintro ⟨hstart, hstop, hends⟩
    obtain ⟨hwhole, htext⟩ :=
      Sectioned.eq_whole_of_bounds hown sec.not_mem_returns hstart hstop
    rw [hwhole] at hown hends htext
    have hfound := (sectionAround?_among_iff habove hs.above_bounds).mpr ⟨hown, hends⟩
    rw [← lines_patched hsec] at hfound
    obtain rfl := Option.some.inj (hagain.symm.trans hfound)
    exact htext

end

end CodeGraft
