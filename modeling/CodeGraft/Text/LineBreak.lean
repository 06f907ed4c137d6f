import CodeGraft.Text.Basic

/-!
# Line breaks

Besides the line feed, a carriage return (alone or with a line feed after it), the vertical and
form feeds, three of the separators, the next-line control and the two Unicode separators break a
line. The broken lines of a text keep their breaks, so nothing is lost.
-/

namespace CodeGraft.Text

def isLineBreak (c : Char) : Bool :=
  let n := c.toNat
  (0xA ≤ n && n ≤ 0xD) || (0x1C ≤ n && n ≤ 0x1E) || n == 0x85 || n == 0x2028 || n == 0x2029

/-- The broken lines of a text whose first line goes on behind `line`, which is given backwards. -/
def brokenLinesFrom : (line text : Text) → List Text
  | line, [] => if line.isEmpty then [] else [line.reverse]
  | line, '\r' :: '\n' :: text => ('\n' :: '\r' :: line).reverse :: brokenLinesFrom [] text
  | line, c :: text =>
    if isLineBreak c then (c :: line).reverse :: brokenLinesFrom [] text
    else brokenLinesFrom (c :: line) text

def brokenLines (text : Text) : List Text := brokenLinesFrom [] text

theorem brokenLinesFrom_flatten (line text : Text) :
    (brokenLinesFrom line text).flatten = line.reverse ++ text := by
  fun_induction brokenLinesFrom line text with
  | case1 line h => simp_all
  | case2 line h => simp
  | case3 line text ih => simp [ih]
  | case4 line c text _ h ih => simp [ih]
  | case5 line c text _ h ih => simp [ih]

theorem brokenLines_flatten (text : Text) : (brokenLines text).flatten = text := by
  simp [brokenLines, brokenLinesFrom_flatten]

theorem brokenLinesFrom_cons {c : Char} {text : Text} (h : c = '\r' → text.head? ≠ some '\n')
    (line : Text) :
    brokenLinesFrom line (c :: text) =
      if isLineBreak c then (c :: line).reverse :: brokenLinesFrom [] text
      else brokenLinesFrom (c :: line) text := by
  rw [brokenLinesFrom]
  rintro more rfl rfl
  exact h rfl rfl

theorem brokenLinesFrom_of_unbroken {front : Text} (h : ∀ c ∈ front, isLineBreak c = false)
    (line text : Text) :
    brokenLinesFrom line (front ++ text) = brokenLinesFrom (front.reverse ++ line) text := by
  induction front generalizing line with
  | nil => rfl
  | cons c front ih =>
    have hc := h c (by simp)
    have hreturn : c ≠ '\r' := by
      rintro rfl
      exact absurd hc (by decide)
    rw [List.cons_append, brokenLinesFrom_cons (absurd · hreturn), if_neg (by simp [hc]),
      ih fun d hd => h d (by simp [hd])]
    simp

/-- Behind a line feed a new line begins, whatever stands in front. -/
theorem brokenLinesFrom_append (line front text : Text) :
    brokenLinesFrom line (front ++ '\n' :: text) =
      brokenLinesFrom line (front ++ ['\n']) ++ brokenLines text := by
  fun_induction brokenLinesFrom line front with
  | case1 line h => simp [brokenLinesFrom, isLineBreak, brokenLines]
  | case2 line h => simp [brokenLinesFrom, isLineBreak, brokenLines]
  | case3 line front ih => simp [brokenLinesFrom, ih]
  | case4 line c front hpair hbreak ih =>
    by_cases hlast : front = [] ∧ c = '\r'
    · simp [hlast, brokenLinesFrom, brokenLines]
    · have hhead : ∀ more, c = '\r' → (front ++ '\n' :: more).head? ≠ some '\n' := by
        intro more hc
        cases front with
        | nil => exact absurd ⟨rfl, hc⟩ hlast
        | cons d front => exact fun hd => hpair front hc (by simpa using hd)
      simp only [List.cons_append]
      rw [brokenLinesFrom_cons (hhead text), brokenLinesFrom_cons (hhead []), if_pos hbreak, ih]
      simp [hbreak]
  | case5 line c front hpair hbreak ih =>
    have hhead : ∀ more, c = '\r' → (front ++ '\n' :: more).head? ≠ some '\n' := by
      rintro more rfl
      exact absurd hbreak (by decide)
    simp only [List.cons_append]
    rw [brokenLinesFrom_cons (hhead text), brokenLinesFrom_cons (hhead []), if_neg hbreak, ih]
    simp [hbreak]

def withoutBreak (line : Text) : Text :=
  match line.reverse with
  | '\n' :: '\r' :: front => front.reverse
  | c :: front => if isLineBreak c then front.reverse else line
  | [] => []

def bareLines (text : Text) : List Text := (brokenLines text).map withoutBreak

theorem withoutBreak_append (front : Text) {c : Char} (hc : isLineBreak c = true)
    (h : c = '\n' → front.getLast? ≠ some '\r') : withoutBreak (front ++ [c]) = front := by
  simp only [withoutBreak, List.reverse_append, List.reverse_singleton, List.singleton_append]
  split
  next before heq =>
    simp only [List.cons.injEq] at heq
    rw [List.getLast?_eq_head?_reverse, heq.2] at h
    exact absurd rfl (h heq.1)
  next d before _ heq =>
    simp only [List.cons.injEq] at heq
    rw [← heq.1, ← heq.2, if_pos hc, List.reverse_reverse]
  next heq => cases heq

theorem withoutBreak_ne_self (front : Text) {c : Char} (hc : isLineBreak c = true) :
    withoutBreak (front ++ [c]) ≠ front ++ [c] := by
  intro h
  have hlen := congrArg List.length h
  simp only [withoutBreak, List.reverse_append, List.reverse_singleton, List.singleton_append] at hlen
  split at hlen
  next before heq =>
    simp only [List.cons.injEq] at heq
    have hfront := congrArg List.length heq.2
    simp at hlen hfront
    omega
  next d before _ heq =>
    simp only [List.cons.injEq] at heq
    rw [← heq.1, ← heq.2, if_pos hc] at hlen
    simp at hlen
  next heq => cases heq

theorem eq_nil_of_brokenLines {text : Text} (h : brokenLines text = []) : text = [] := by
  rw [← brokenLines_flatten text, h]
  rfl

theorem not_isLineBreak_of_bareLines {text : Text} (h : bareLines text = [text]) :
    ∀ c ∈ text, isLineBreak c = false := by
  -- The line so far goes along, as a break shows only at the end of a line.
  have hfrom : ∀ line t : Text, brokenLinesFrom line t = [line.reverse ++ t] →
      withoutBreak (line.reverse ++ t) = line.reverse ++ t → ∀ c ∈ t, isLineBreak c = false := by
    intro line t
    fun_induction brokenLinesFrom line t with
    | case1 line hline => simp
    | case2 line hline => simp
    | case3 line t ih =>
      intro hlines hbare
      simp only [List.cons.injEq] at hlines
      obtain rfl := eq_nil_of_brokenLines hlines.2
      rw [List.append_cons] at hbare
      exact absurd hbare (withoutBreak_ne_self _ rfl)
    | case4 line c t hpair hbreak ih =>
      intro hlines hbare
      simp only [List.cons.injEq] at hlines
      obtain rfl := eq_nil_of_brokenLines hlines.2
      exact absurd hbare (withoutBreak_ne_self _ hbreak)
    | case5 line c t hpair hbreak ih =>
      intro hlines hbare d hd
      have ih := ih (by simpa using hlines) (by simpa using hbare)
      rcases List.mem_cons.mp hd with rfl | hd
      · simpa using hbreak
      · exact ih d hd
  obtain ⟨line, hline, hbare⟩ : ∃ line, brokenLines text = [line] ∧ withoutBreak line = text := by
    simpa [bareLines, List.map_eq_cons_iff] using h
  have hflat := brokenLines_flatten text
  rw [hline] at hflat
  obtain rfl : line = text := by simpa using hflat
  exact hfrom [] line hline hbare

/-- Every carriage return, with the line feed after it if there is one, becomes a line feed. -/
def unifyNewlines : Text → Text
  | [] => []
  | '\r' :: '\n' :: text => '\n' :: unifyNewlines text
  | c :: text => (if c = '\r' then '\n' else c) :: unifyNewlines text

theorem unifyNewlines_of_not_mem {text : Text} (h : '\r' ∉ text) : unifyNewlines text = text := by
  fun_induction unifyNewlines text with
  | case1 => rfl
  | case2 text ih => simp at h
  | case3 c text _ ih =>
    simp only [List.mem_cons, not_or] at h
    rw [ih h.2, if_neg (Ne.symm h.1)]

/-- Every carriage return that a line feed follows is dropped. -/
def dropPairedReturns : Text → Text
  | [] => []
  | '\r' :: '\n' :: text => '\n' :: dropPairedReturns text
  | c :: text => c :: dropPairedReturns text

end CodeGraft.Text
