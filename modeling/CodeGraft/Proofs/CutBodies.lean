import CodeGraft.Proofs.Cuts
import CodeGraft.Proofs.Headers
import CodeGraft.Proofs.Spans
import Mathlib.Data.List.TakeWhile

/-!
# Bodies in a stretch cut out of a text

A body that ends where the stretch ends is found in the stretch by itself: a closer at its last
character, an expression that fills its last line, or a block whose last line it ends with.
-/

namespace CodeGraft

open Text Pattern Cursor

namespace Delimiter

variable {d : Delimiter} {style : CommentStyle}

/-- Whether a character that is read in a mode closes the last open delimiter. -/
def Ends (d : Delimiter) (mode : ReadMode) (depth : Nat) (c : Char) : Prop :=
  mode = .code ∧ c ≠ d.opener ∧ c = d.closer ∧ depth ≤ 1

/-- How many delimiters are open behind a character that is read in a mode. -/
def depthAfter (d : Delimiter) (mode : ReadMode) (depth : Nat) (c : Char) : Nat :=
  if mode = .code ∧ c = d.opener then depth + 1
  else if mode = .code ∧ c = d.closer then depth - 1
  else depth

theorem closingFrom_cons_iff {mode : ReadMode} {depth n : Nat} {c : Char} {text : Text} :
    d.closingFrom style mode depth (c :: text) = some n ↔
      (d.Ends mode depth c ∧ n = 0) ∨ (¬ d.Ends mode depth c ∧ ∃ m,
        d.closingFrom style (mode.next style c text.head?) (d.depthAfter mode depth c) text = some m ∧
          n = m + 1) := by
  have hmap : ∀ o : Option Nat, o.map (· + 1) = some n ↔ ∃ m, o = some m ∧ n = m + 1 := by
    intro o
    rw [Option.map_eq_some_iff]
    exact exists_congr fun m => and_congr_right fun _ => eq_comm
  simp only [closingFrom]
  by_cases hopens : mode = .code ∧ c = d.opener
  · rw [if_pos hopens, hmap]
    simp [Ends, depthAfter, hopens]
  · rw [if_neg hopens]
    by_cases hcloses : mode = .code ∧ c = d.closer
    · rw [if_pos hcloses]
      by_cases hdepth : depth ≤ 1
      · have hends : d.Ends mode depth c := ⟨hcloses.1, fun h => hopens ⟨hcloses.1, h⟩, hcloses.2, hdepth⟩
        simp [hends, hdepth, eq_comm]
      · have hends : ¬ d.Ends mode depth c := fun h => hdepth h.2.2.2
        rw [if_neg hdepth, hmap, depthAfter, if_neg hopens, if_pos hcloses]
        simp [hends]
    · have hends : ¬ d.Ends mode depth c := fun h => hcloses ⟨h.1, h.2.2.1⟩
      rw [if_neg hcloses, hmap, depthAfter, if_neg hopens, if_neg hcloses]
      simp [hends]

theorem getElem?_of_closingFrom {mode : ReadMode} {depth n : Nat} {text : Text}
    (h : d.closingFrom style mode depth text = some n) : text[n]? = some d.closer := by
  induction text generalizing mode depth n with
  | nil => cases h
  | cons c text ih =>
    rcases closingFrom_cons_iff.mp h with ⟨hends, rfl⟩ | ⟨-, m, hm, rfl⟩
    · simp [hends.2.2.1]
    · simpa using ih hm

/-- A closer in front of the end is found as well without what follows the end. -/
theorem closingFrom_append {mode : ReadMode} {depth n : Nat} {text tail : Text}
    (h : d.closingFrom style mode depth (text ++ tail) = some n) (hn : n < text.length) :
    d.closingFrom style mode depth text = some n := by
  induction text generalizing mode depth n with
  | nil => simp at hn
  | cons c text ih =>
    rw [List.cons_append, closingFrom_cons_iff] at h
    rw [closingFrom_cons_iff]
    rcases h with h | ⟨hends, m, hm, rfl⟩
    · exact Or.inl h
    · -- The closer lies further on, so the character ahead is the same.
      have hlt : m < text.length := by simpa using hn
      have hhead : (text ++ tail).head? = text.head? := by
        cases text with
        | nil => cases hlt
        | cons x text => rfl
      rw [hhead] at hm
      exact Or.inr ⟨hends, m, ih hm hlt, rfl⟩

theorem close?_front {a c : Cursor} (h : d.close? style a = some c) :
    ∃ front, a.Passes (front ++ [d.closer]) c ∧
      d.closingFrom style .code 1 a.rest = some front.length := by
  obtain ⟨n, hn, rfl⟩ := Option.map_eq_some_iff.mp h
  obtain ⟨hlt, hget⟩ := List.getElem?_eq_some_iff.mp (getElem?_of_closingFrom hn)
  refine ⟨a.rest.take n, ?_, ?_⟩
  · rw [← hget, List.take_append_getElem]
    exact Passes.skip_of_le hlt
  · rw [List.length_take_of_le (Nat.le_of_lt hlt)]
    exact hn

theorem close?_passes {a c : Cursor} (h : d.close? style a = some c) :
    ∃ front, a.Passes (front ++ [d.closer]) c := by
  obtain ⟨front, hpasses, -⟩ := close?_front h
  exact ⟨front, hpasses⟩

theorem close?_offset_lt {a c : Cursor} (h : d.close? style a = some c) : a.offset < c.offset := by
  obtain ⟨front, hpasses⟩ := close?_passes h
  rw [hpasses.offset_eq, List.length_append, List.length_singleton]
  omega

end Delimiter

namespace Cut

open Shape

variable {w : Cut} {a b c : Cursor}

theorem close?_same {d : Delimiter} {style : CommentStyle} (hab : w.Same a b)
    (h : d.close? style a = some c) (hle : c.offset ≤ w.start + w.content.length) :
    ∃ e, d.close? style b = some e ∧ w.Same c e := by
  obtain ⟨n, hn, rfl⟩ := Option.map_eq_some_iff.mp h
  have hlt : n + 1 ≤ a.rest.length :=
    (List.getElem?_eq_some_iff.mp (Delimiter.getElem?_of_closingFrom hn)).1
  have hoffset := (Passes.skip_of_le hlt).offset_eq
  rw [List.length_take_of_le hlt] at hoffset
  have hab_offset := hab.offset_eq
  have hlen := hab.length_eq
  have hin : n + 1 ≤ b.rest.length := by omega
  rw [hab.rest_eq] at hn
  refine ⟨b.skip (n + 1), ?_, hab.skip hin⟩
  rw [Delimiter.close?, Delimiter.closingFrom_append hn hin]
  rfl

theorem respects_arrow {limit : Nat} : arrow.Every (w.Respects limit) fun _ => True := by
  simp [arrow]

theorem respects_bareParameterArrow {limit : Nat} :
    bareParameterArrow.Every (w.Respects limit) fun _ => True := by
  simp [bareParameterArrow]

theorem respects_lambdaHead (hclean : w.Clean) :
    lambdaHead.Every (w.Respects w.content.length) fun _ => True := by
  simp [lambdaHead, Every, respects_wordEdge hclean]

theorem respects_functionHead (hclean : w.Clean) :
    functionHead.Every (w.Respects w.content.length) fun _ => True := by
  simp [functionHead, respects_wordEdge hclean]

theorem respects_bodyOpening {limit : Nat} : bodyOpening.Every (w.Respects limit) fun _ => True := by
  simp [bodyOpening, Every]

theorem braceBody?_same (hab : w.Same a b) (h : braceBody? a = some c)
    (hle : c.offset ≤ w.start + w.content.length) :
    ∃ e, braceBody? b = some e ∧ w.Same c e := by
  simp only [braceBody?, bind, Option.bind_eq_some_iff] at h ⊢
  obtain ⟨closed, hclosed, opened, hopened, hbody⟩ := h
  have hlt := Delimiter.close?_offset_lt hbody
  have hle' := (fitAt?_reaches hopened).offset_le
  obtain ⟨closed', hclosed', hsame⟩ := close?_same hab hclosed (by omega)
  obtain ⟨opened', hopened', hsame⟩ :=
    fitAt?_same (Nat.le_succ _) respects_bodyOpening hsame hopened (by omega)
  obtain ⟨e, he, hsame⟩ := close?_same hsame hbody hle
  exact ⟨e, ⟨closed', hclosed', opened', hopened', he⟩, hsame⟩

end Cut

/-! ### Expressions and bound callables -/

namespace Shape

variable {a c : Cursor}

theorem expressionEnd?_eq_some_iff :
    expressionEnd? a = some c ↔ trimEnd (a.rest.takeWhile (· ≠ '\n')) ≠ [] ∧
      c = a.skip (trimEnd (a.rest.takeWhile (· ≠ '\n'))).length := by
  rw [expressionEnd?]
  generalize trimEnd (a.rest.takeWhile (· ≠ '\n')) = expression
  cases expression with
  | nil => simp
  | cons x expression => simp [eq_comm]

theorem expressionEnd?_passes (h : expressionEnd? a = some c) :
    a.Passes (trimEnd (a.rest.takeWhile (· ≠ '\n'))) c ∧ c.rest.head?.any isWordChar = false := by
  obtain ⟨hne, rfl⟩ := expressionEnd?_eq_some_iff.mp h
  obtain ⟨blanks, hline, hblanks⟩ := exists_trimEnd_append (a.rest.takeWhile (· ≠ '\n'))
  have hrest : a.rest = trimEnd (a.rest.takeWhile (· ≠ '\n')) ++
      (blanks ++ a.rest.dropWhile (· ≠ '\n')) := by
    rw [← List.append_assoc, ← hline, List.takeWhile_append_dropWhile]
  have hpasses := Passes.skip hrest
  refine ⟨hpasses, ?_⟩
  have hbehind := List.append_cancel_left (hpasses.rest_eq.symm.trans hrest)
  rw [hbehind]
  cases blanks with
  | cons x blanks =>
    have hx := List.all_eq_true.mp hblanks x (by simp)
    simpa using not_isWordChar_of_isBlank hx
  | nil =>
    rw [List.nil_append]
    cases hbelow : a.rest.dropWhile (· ≠ '\n') with
    | nil => rfl
    | cons x below =>
      have hfeed : x = '\n' := by
        have := List.head?_dropWhile_not (· ≠ '\n') a.rest
        rw [hbelow] at this
        simpa using this
      rw [hfeed]
      rfl

theorem expressionEnd?_offset_lt (h : expressionEnd? a = some c) : a.offset < c.offset := by
  have hpos := List.length_pos_iff.mpr (expressionEnd?_eq_some_iff.mp h).1
  rw [(expressionEnd?_passes h).1.offset_eq]
  omega

theorem arrowHead?_eq_some_iff :
    arrowHead? a = some c ↔
      (a.rest.head? = some '(' ∧ ∃ closed, Delimiter.paren.close? .slashes a.next = some closed ∧
        arrow.fitAt? closed = some c) ∨
      (a.rest.head? ≠ some '(' ∧ bareParameterArrow.fitAt? a = some c) := by
  simp only [arrowHead?]
  split
  next rest hrest => simp [hrest, bind, Option.bind_eq_some_iff]
  next hrest =>
    have hhead : a.rest.head? ≠ some '(' := by
      intro hhead
      obtain ⟨rest, ha⟩ := List.head?_eq_some_iff.mp hhead
      exact hrest rest ha
    simp [hhead]

theorem boundCallableEnd?_eq_some_iff :
    boundCallableEnd? a = some c ↔
      (∃ body, lambdaHead.fitAt? a = some body ∧ expressionEnd? body = some c) ∨
      (lambdaHead.fitAt? a = none ∧
        ∃ opened, functionHead.fitAt? a = some opened ∧ braceBody? opened = some c) ∨
      (lambdaHead.fitAt? a = none ∧ functionHead.fitAt? a = none ∧
        ∃ body, arrowHead? a = some body ∧
          ((body.rest.head? = some '{' ∧ Delimiter.brace.close? .slashes body.next = some c) ∨
            (body.rest.head? ≠ some '{' ∧ expressionEnd? body = some c))) := by
  simp only [boundCallableEnd?]
  split
  next body hbody => simp [hbody]
  next hlambda =>
    split
    next opened hopened => simp [hlambda, hopened]
    next hfunction =>
      split
      next harrow => simp [hlambda, hfunction, harrow]
      next body harrow =>
        split
        next rest hrest => simp [hlambda, hfunction, harrow, hrest]
        next hrest =>
          have hhead : body.rest.head? ≠ some '{' := by
            intro hhead
            obtain ⟨rest, hbody⟩ := List.head?_eq_some_iff.mp hhead
            exact hrest rest hbody
          simp [hlambda, hfunction, harrow, hhead]

theorem braceBody?_passes {a c : Cursor} (h : braceBody? a = some c) :
    ∃ front, a.Passes (front ++ ['}']) c := by
  simp only [braceBody?, bind, Option.bind_eq_some_iff] at h
  obtain ⟨closed, hclosed, opened, hopened, hbody⟩ := h
  obtain ⟨front, hfront⟩ := (Delimiter.close?_reaches hclosed).trans (fitAt?_reaches hopened)
  obtain ⟨body, hbody⟩ := Delimiter.close?_passes hbody
  refine ⟨front ++ body, ?_⟩
  rw [List.append_assoc]
  exact hfront.trans hbody

theorem braceBody?_offset_lt {a c : Cursor} (h : braceBody? a = some c) : a.offset < c.offset := by
  obtain ⟨front, hfront⟩ := braceBody?_passes h
  rw [hfront.offset_eq, List.length_append, List.length_singleton]
  omega

theorem offset_lt_of_arrowBody {body : Cursor}
    (h : (body.rest.head? = some '{' ∧ Delimiter.brace.close? .slashes body.next = some c) ∨
      (body.rest.head? ≠ some '{' ∧ expressionEnd? body = some c)) : body.offset < c.offset := by
  rcases h with ⟨-, hbraces⟩ | ⟨-, hexpression⟩
  · have hnext := (Reaches.next body).offset_le
    have hlt := Delimiter.close?_offset_lt hbraces
    omega
  · exact expressionEnd?_offset_lt hexpression

theorem boundCallableEnd?_offset_lt (h : boundCallableEnd? a = some c) : a.offset < c.offset := by
  rcases boundCallableEnd?_eq_some_iff.mp h with
    ⟨body, hhead, hbody⟩ | ⟨-, opened, hopened, hbody⟩ | ⟨-, -, body, hhead, hbody⟩
  · exact Nat.lt_of_le_of_lt (fitAt?_reaches hhead).offset_le (expressionEnd?_offset_lt hbody)
  · exact Nat.lt_of_le_of_lt (fitAt?_reaches hopened).offset_le (braceBody?_offset_lt hbody)
  · exact Nat.lt_of_le_of_lt (arrowHead?_reaches hhead).offset_le (offset_lt_of_arrowBody hbody)

theorem boundCallableEnd?_clean (h : boundCallableEnd? a = some c) :
    (∃ front, a.Passes (front ++ ['}']) c) ∨ c.rest.head?.any isWordChar = false := by
  rcases boundCallableEnd?_eq_some_iff.mp h with
    ⟨body, -, hbody⟩ | ⟨-, opened, hopened, hbody⟩ | ⟨-, -, body, hhead, hbody⟩
  · exact Or.inr (expressionEnd?_passes hbody).2
  · obtain ⟨front, hfront⟩ := fitAt?_reaches hopened
    obtain ⟨body, hbody⟩ := braceBody?_passes hbody
    refine Or.inl ⟨front ++ body, ?_⟩
    rw [List.append_assoc]
    exact hfront.trans hbody
  · rcases hbody with ⟨-, hbody⟩ | ⟨-, hbody⟩
    · obtain ⟨front, hfront⟩ := (arrowHead?_reaches hhead).trans (Reaches.next body)
      obtain ⟨body, hbody⟩ := Delimiter.close?_passes hbody
      refine Or.inl ⟨front ++ body, ?_⟩
      rw [List.append_assoc]
      exact hfront.trans hbody
    · exact Or.inr (expressionEnd?_passes hbody).2

end Shape

namespace Cut

open Shape

variable {w : Cut} {a b c : Cursor}

theorem expressionEnd?_same (hab : w.Same a b) (h : expressionEnd? a = some c)
    (hend : c.offset = w.start + w.content.length) :
    ∃ e, expressionEnd? b = some e ∧ w.Same c e := by
  have hoffset := (expressionEnd?_passes h).1.offset_eq
  obtain ⟨hne, rfl⟩ := expressionEnd?_eq_some_iff.mp h
  obtain ⟨blanks, hline, -⟩ := exists_trimEnd_append (a.rest.takeWhile (· ≠ '\n'))
  have htrim := trimEnd_trimEnd (a.rest.takeWhile (· ≠ '\n'))
  have hsplit := List.takeWhile_append_dropWhile (p := (· ≠ '\n')) (l := a.rest)
  have hfeed : ∀ x ∈ a.rest.takeWhile (· ≠ '\n'), x ≠ '\n' := by
    intro x hx
    simpa using List.mem_takeWhile_imp hx
  generalize trimEnd (a.rest.takeWhile (· ≠ '\n')) = expression at *
  -- The stretch ends with the expression, so nothing else is left of it.
  have hlen := hab.length_eq
  have hab_offset := hab.offset_eq
  have hbrest : b.rest = expression := by
    have hrest : b.rest ++ w.tail = expression ++ (blanks ++ a.rest.dropWhile (· ≠ '\n')) := by
      rw [← hab.rest_eq, ← List.append_assoc, ← hline, hsplit]
    exact (List.append_inj hrest (by omega)).1
  have hwhole : b.rest.takeWhile (· ≠ '\n') = expression := by
    rw [hbrest, List.takeWhile_eq_self_iff]
    intro x hx
    rw [hline] at hfeed
    simpa using hfeed x (List.mem_append_left _ hx)
  refine ⟨b.skip expression.length, ?_, hab.skip (Nat.le_of_eq (by rw [hbrest]))⟩
  rw [expressionEnd?_eq_some_iff, hwhole, htrim]
  exact ⟨hne, rfl⟩

theorem arrowHead?_same (hab : w.Same a b) (h : arrowHead? a = some c)
    (hlt : c.offset < w.start + w.content.length) :
    ∃ e, arrowHead? b = some e ∧ w.Same c e := by
  have hle := (arrowHead?_reaches h).offset_le
  have hne := hab.rest_ne_nil (by omega)
  simp only [arrowHead?_eq_some_iff, ← hab.head?_eq hne]
  rcases arrowHead?_eq_some_iff.mp h with ⟨hparen, closed, hclosed, harrow⟩ | ⟨hname, harrow⟩
  · have hle := (fitAt?_reaches harrow).offset_le
    obtain ⟨closed', hclosed', hsame⟩ := close?_same (hab.next hne) hclosed (by omega)
    obtain ⟨e, he, hce⟩ := fitAt?_same (Nat.le_succ _) respects_arrow hsame harrow hlt
    exact ⟨e, Or.inl ⟨hparen, closed', hclosed', he⟩, hce⟩
  · obtain ⟨e, he, hce⟩ := fitAt?_same (Nat.le_succ _) respects_bareParameterArrow hab harrow hlt
    exact ⟨e, Or.inr ⟨hname, he⟩, hce⟩

/-- A bound callable that ends with the stretch is the same one in it. The notations are tried in the
same order, and one that does not fit in the text does not fit in the stretch. -/
theorem boundCallableEnd?_same (hclean : w.Clean) (hab : w.Same a b)
    (h : boundCallableEnd? a = some c) (hend : c.offset = w.start + w.content.length) :
    ∃ e, boundCallableEnd? b = some e ∧ w.Same c e := by
  have hlambda : w.Agree w.content.length (lambdaHead.fitAt? a) (lambdaHead.fitAt? b) :=
    fitAt?_agree (by omega) (respects_lambdaHead hclean) hab
  have hfunction : w.Agree w.content.length (functionHead.fitAt? a) (functionHead.fitAt? b) :=
    fitAt?_agree (by omega) (respects_functionHead hclean) hab
  simp only [boundCallableEnd?_eq_some_iff]
  rcases boundCallableEnd?_eq_some_iff.mp h with
    ⟨body, hbody, hexpression⟩ | ⟨hnone, opened, hopened, hbraces⟩ |
      ⟨hnone, hnone', body, harrow, hbody⟩
  · have hlt := expressionEnd?_offset_lt hexpression
    obtain ⟨body', hbody', hsame⟩ := hlambda.of_some body hbody (by omega)
    obtain ⟨e, he, hce⟩ := expressionEnd?_same hsame hexpression hend
    exact ⟨e, Or.inl ⟨body', hbody', he⟩, hce⟩
  · have hlt := braceBody?_offset_lt hbraces
    obtain ⟨opened', hopened', hsame⟩ := hfunction.of_some opened hopened (by omega)
    obtain ⟨e, he, hce⟩ := braceBody?_same hsame hbraces (by omega)
    exact ⟨e, Or.inr (Or.inl ⟨hlambda.of_none hnone, opened', hopened', he⟩), hce⟩
  · have hlt := offset_lt_of_arrowBody hbody
    obtain ⟨body', harrow', hsame⟩ := arrowHead?_same hab harrow (by omega)
    have hne := hsame.rest_ne_nil (by omega)
    obtain ⟨e, he, hce⟩ : ∃ e, ((body'.rest.head? = some '{' ∧
        Delimiter.brace.close? .slashes body'.next = some e) ∨
        (body'.rest.head? ≠ some '{' ∧ expressionEnd? body' = some e)) ∧ w.Same c e := by
      rw [← hsame.head?_eq hne]
      rcases hbody with ⟨hbrace, hbraces⟩ | ⟨hother, hexpression⟩
      · obtain ⟨e, he, hce⟩ := close?_same (hsame.next hne) hbraces (by omega)
        exact ⟨e, Or.inl ⟨hbrace, he⟩, hce⟩
      · obtain ⟨e, he, hce⟩ := expressionEnd?_same hsame hexpression hend
        exact ⟨e, Or.inr ⟨hother, he⟩, hce⟩
    exact ⟨e, Or.inr (Or.inr ⟨hlambda.of_none hnone, hfunction.of_none hnone', body', harrow', he⟩),
      hce⟩

end Cut

/-! ### Blocks -/

theorem indentWidth_append {front : Text} (h : isBlankText front = false) (behind : Text) :
    indentWidth (front ++ behind) = indentWidth front := by
  fun_induction indentWidth front with
  | case1 front ih =>
    have hspace : isBlank ' ' = true := rfl
    simp only [isBlankText, List.all_cons, hspace, Bool.true_and] at h
    rw [List.cons_append, indentWidth, ih h]
  | case2 front ih =>
    have htab : isBlank '\t' = true := rfl
    simp only [isBlankText, List.all_cons, htab, Bool.true_and] at h
    rw [List.cons_append, indentWidth, ih h]
  | case3 front hspace htab =>
    cases front with
    | nil => cases h
    | cons c front =>
      rw [List.cons_append, indentWidth]
      · rintro t ⟨⟩
        exact hspace front rfl
      · rintro t ⟨⟩
        exact htab front rfl

theorem indentWidth_trimEnd {line : Text} (h : isBlankText line = false) :
    indentWidth (trimEnd line) = indentWidth line := by
  obtain ⟨blanks, hline, -⟩ := exists_trimEnd_append line
  rw [← isBlankText_trimEnd] at h
  conv => rhs; rw [hline]
  exact (indentWidth_append h blanks).symm

namespace Shape

variable {header : Nat}

theorem blockStop_eq_or_le (header : Nat) (literal : Option Quote) (start stop : Nat) (ls : List Text) :
    blockStop header literal start stop ls = stop ∨
      start ≤ blockStop header literal start stop ls := by
  induction ls generalizing literal start stop with
  | nil => exact Or.inl rfl
  | cons line ls ih =>
    simp only [blockStop]
    split
    · rcases ih (openLiteralAfter literal line) (start + line.length + 1) stop with h | h
      · exact Or.inl h
      · exact Or.inr (by omega)
    · split
      · exact Or.inl rfl
      · rcases ih (openLiteralAfter literal line) (start + line.length + 1)
          (start + (trimEnd line).length) with h | h
        · exact Or.inr (by omega)
        · exact Or.inr (by omega)

theorem ne_nil_of_blockStop {literal : Option Quote} {start stop : Nat} {ls : List Text}
    (hstop : stop < start) (hle : start ≤ blockStop header literal start stop ls) : ls ≠ [] := by
  rintro rfl
  simp only [blockStop] at hle
  omega

/-- A block ends at the same place when the text is cut off there and its header is not indented: its
lines keep their indentation, and the last one only loses blanks. -/
theorem blockStop_take {literal : Option Quote} {start stop : Nat} {ls : List Text}
    (hls : ∀ line ∈ ls, '\n' ∉ line) (hstop : stop < start)
    (hle : start ≤ blockStop header literal start stop ls) :
    blockStop 0 literal start stop
      (lines ((unlines ls).take (blockStop header literal start stop ls - start))) =
        blockStop header literal start stop ls := by
  induction ls generalizing literal start stop with
  | nil => exact absurd rfl (ne_nil_of_blockStop hstop hle)
  | cons line ls ih =>
    have hline := hls line (by simp)
    have hls := fun l hl => hls l (List.mem_cons_of_mem line hl)
    -- A block that goes on below the line keeps the line as it is.
    have hbelow : ∀ n, start + line.length + 1 ≤ n → ls ≠ [] →
        lines ((unlines (line :: ls)).take (n - start)) =
          line :: lines ((unlines ls).take (n - (start + line.length + 1))) := by
      intro n hn hne
      obtain ⟨m, rfl⟩ := Nat.exists_eq_add_of_le hn
      have hsub : start + line.length + 1 + m - start = line.length + (m + 1) := by omega
      rw [unlines_cons line hne, ← lines_append_of_not_mem hline, hsub, List.take_length_add_append,
        List.take_succ_cons, Nat.add_sub_cancel_left]
    simp only [blockStop] at hle ⊢
    split at hle
    next hblank =>
      simp only [hblank, if_true]
      have hle' : start + line.length + 1 ≤ blockStop header (openLiteralAfter literal line)
          (start + line.length + 1) stop ls := by
        rcases blockStop_eq_or_le header (openLiteralAfter literal line) (start + line.length + 1) stop ls
          with h | h
        · omega
        · exact h
      have hne := ne_nil_of_blockStop (by omega) hle'
      rw [hbelow _ hle' hne, blockStop, if_pos hblank, ih hls (by omega) hle']
    next hblank =>
      split at hle
      next => omega
      next hdeep =>
        have hlen := (trimEnd_isPrefix line).length_le
        have hdeep' : ¬(literal = none ∧ indentWidth line ≤ 0) := fun h => hdeep ⟨h.1, by omega⟩
        simp only [hblank, Bool.false_eq_true, if_false, if_neg hdeep]
        rcases blockStop_eq_or_le header (openLiteralAfter literal line) (start + line.length + 1)
          (start + (trimEnd line).length) ls with hlast | hle'
        · have hprefix := (trimEnd_isPrefix line).trans (prefix_unlines line ls)
          have hfeed : '\n' ∉ trimEnd line := fun h => hline ((trimEnd_isPrefix line).subset h)
          rw [hlast, Nat.add_sub_cancel_left, ← List.prefix_iff_eq_take.mp hprefix,
            lines_of_not_mem hfeed, blockStop, isBlankText_trimEnd, if_neg (by simp [hblank]),
            indentWidth_trimEnd (by simpa using hblank), if_neg hdeep', blockStop, trimEnd_trimEnd]
        · have hne := ne_nil_of_blockStop (by omega) hle'
          rw [hbelow _ hle' hne, blockStop, if_neg (by simp [hblank]), if_neg hdeep',
            ih hls (by omega) hle']

theorem takeWhile_line {first : Text} (hfirst : '\n' ∉ first) (below : Text) :
    first.takeWhile (· ≠ '\n') = first ∧
      (first ++ '\n' :: below).takeWhile (· ≠ '\n') = first := by
  have hall : ∀ x ∈ first, decide (x ≠ '\n') = true := by
    intro x hx
    rw [decide_eq_true_eq]
    rintro rfl
    exact hfirst hx
  refine ⟨List.takeWhile_eq_self_iff.mpr hall, ?_⟩
  rw [List.takeWhile_append_of_pos hall]
  simp

theorem blockEnd_of_line (header : Nat) {c : Cursor} (hc : '\n' ∉ c.rest) :
    blockEnd header c =
      c.skip (if isBlankText c.rest then c.rest.length else (trimEnd c.rest).length) := by
  simp only [blockEnd, (takeWhile_line hc []).1, List.drop_length]
  cases isBlankText c.rest <;> rfl

theorem blockEnd_of_lines (header : Nat) {c : Cursor} {first below : Text} (hfirst : '\n' ∉ first)
    (hc : c.rest = first ++ '\n' :: below) :
    blockEnd header c =
      c.skip (if isBlankText first
        then blockStop header none (first.length + 1) first.length (lines below)
        else (trimEnd first).length) := by
  simp only [blockEnd, hc, (takeWhile_line hfirst below).2, List.drop_left]
  cases isBlankText first <;> rfl

theorem blockEnd_take (header : Nat) (a : Cursor) :
    ∃ n, blockEnd header a = a.skip n ∧
      ∀ b : Cursor, b.rest = a.rest.take n → blockEnd 0 b = b.skip n := by
  -- A first line with code is the whole block, whatever stands below.
  have hcode : ∀ first : Text, '\n' ∉ first → isBlankText first = false → first <+: a.rest →
      ∀ b : Cursor, b.rest = a.rest.take (trimEnd first).length →
        blockEnd 0 b = b.skip (trimEnd first).length := by
    intro first hfirst hblank hprefix b hb
    rw [← List.prefix_iff_eq_take.mp ((trimEnd_isPrefix first).trans hprefix)] at hb
    have hfeed : '\n' ∉ b.rest := by
      rw [hb]
      exact fun h => hfirst ((trimEnd_isPrefix first).subset h)
    rw [blockEnd_of_line 0 hfeed, hb, isBlankText_trimEnd, hblank, trimEnd_trimEnd]
    rfl
  by_cases hfeed : '\n' ∈ a.rest
  · obtain ⟨first, below, ha, hfirst⟩ := List.eq_append_cons_of_mem hfeed
    refine ⟨_, blockEnd_of_lines header hfirst ha, ?_⟩
    cases hblank : isBlankText first with
    | false => exact hcode first hfirst hblank (ha ▸ List.prefix_append _ _)
    | true =>
      intro b hb
      rw [if_pos rfl] at hb ⊢
      rcases blockStop_eq_or_le header none (first.length + 1) first.length (lines below) with
        hlast | hle
      · rw [hlast, ha, List.take_left] at hb
        rw [blockEnd_of_line 0 (hb ▸ hfirst), hb, hblank, if_pos rfl, hlast]
      · have hls : ∀ line ∈ lines below, '\n' ∉ line := fun _ hline => not_mem_of_mem_splitOn hline
        have hlt : first.length < first.length + 1 := Nat.lt_succ_self _
        have htake := blockStop_take hls hlt hle
        obtain ⟨m, hm⟩ := Nat.exists_eq_add_of_le hle
        rw [hm, Nat.add_sub_cancel_left, unlines_lines] at htake
        rw [hm, ha, Nat.add_assoc, List.take_length_add_append, Nat.add_comm 1 m,
          List.take_succ_cons] at hb
        rw [blockEnd_of_lines 0 hfirst hb, hblank, if_pos rfl, htake, hm]
  · refine ⟨_, blockEnd_of_line header hfeed, ?_⟩
    cases hblank : isBlankText a.rest with
    | false => exact hcode a.rest hfeed hblank List.prefix_rfl
    | true =>
      intro b hb
      rw [if_pos rfl, List.take_length] at hb
      rw [blockEnd_of_line 0 (hb ▸ hfeed), hb, hblank]

end Shape

namespace Cut

open Shape

/-- A block that ends with the stretch ends there in the stretch too. Its header begins the stretch, so
it is not indented there. -/
theorem blockEnd_same {w : Cut} {a b : Cursor} {header : Nat} (hab : w.Same a b)
    (hend : (blockEnd header a).offset = w.start + w.content.length) :
    w.Same (blockEnd header a) (blockEnd 0 b) := by
  obtain ⟨n, hblock, htake⟩ := blockEnd_take header a
  have hlen := hab.length_eq
  have hoffset := hab.offset_eq
  rw [hblock, skip_min, (Passes.skip_of_le (Nat.min_le_right _ _)).offset_eq,
    List.length_take_of_le (Nat.min_le_right _ _)] at hend
  have hmin : min n a.rest.length = b.rest.length := by omega
  have hb : b.rest = a.rest.take n := by
    rw [List.take_eq_take_min, hmin, hab.rest_eq, List.take_left]
  have hle : b.rest.length ≤ n := by omega
  rw [hblock, htake b hb, skip_min n a, skip_min n b, hmin, Nat.min_eq_right hle]
  exact hab.skip (Nat.le_refl _)

end Cut

end CodeGraft
