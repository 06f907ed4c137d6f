import CodeGraft.Proofs.Balance
import CodeGraft.Proofs.CutBodies
import CodeGraft.Proofs.Splice

/-!
# The code of a source text

What a reader of source text reads as code is the text with everything else blanked out: the literals
behind their first quote and the comments. The closer of a delimiter is where the code behind the
delimiter holds a closer with balanced code in front of it. A reader that starts behind a bracket that is
read as code reads the same code as the one that has come there.
-/

namespace CodeGraft

open Text

namespace ReadMode

variable {style : CommentStyle} {mode : ReadMode} {text : Text} {c : Char} {i : Nat}

def seen (mode : ReadMode) (c : Char) : Char := if mode = .code then c else ' '

/-- The text with a space in place of each character that is not read as code. -/
def codeOf (style : CommentStyle) : ReadMode → Text → Text
  | _, [] => []
  | mode, c :: text => mode.seen c :: codeOf style (mode.next style c text.head?) text

@[simp] theorem length_codeOf (style : CommentStyle) (mode : ReadMode) (text : Text) :
    (codeOf style mode text).length = text.length := by
  induction text generalizing mode with
  | nil => rfl
  | cons c text ih => rw [codeOf, List.length_cons, ih, List.length_cons]

/-- Characters that keep a reader of code in the code. -/
def Plain (c : Char) : Prop := c ≠ ' ' ∧ isQuote c = false ∧ c ≠ '/' ∧ c ≠ '#'

instance (c : Char) : Decidable (Plain c) := inferInstanceAs (Decidable (_ ∧ _))

theorem Plain.next (h : Plain c) (style : CommentStyle) (ahead : Option Char) :
    ReadMode.code.next style c ahead = .code := by
  obtain ⟨-, hquote, hslash, hhash⟩ := h
  simp [ReadMode.next, hquote, hslash, hhash]

theorem codeOf_behind (hc : Plain c) (h : (codeOf style mode text)[i]? = some c) :
    text[i]? = some c ∧
      (codeOf style mode text).drop (i + 1) = codeOf style .code (text.drop (i + 1)) := by
  induction text generalizing mode i with
  | nil => cases h
  | cons x text ih =>
    cases i with
    | zero =>
      simp only [codeOf, seen, List.getElem?_cons_zero, Option.some.injEq] at h
      split at h
      next hmode =>
        subst h hmode
        rw [codeOf, List.drop_succ_cons, List.drop_succ_cons, hc.next]
        exact ⟨rfl, rfl⟩
      next => exact absurd h.symm hc.1
    | succ i => exact ih h

end ReadMode

/-! ### Closers in the code -/

namespace Delimiter

variable {d : Delimiter} {style : CommentStyle} {mode : ReadMode} {text : Text} {depth n : Nat}

/-- The pairs of brackets that a source text can have. -/
def IsBracket (d : Delimiter) : Prop := d ∈ [paren, brace, bracket]

theorem isBracket_brace : brace.IsBracket := List.mem_cons_of_mem _ (List.mem_cons_self ..)

theorem IsBracket.distinct (h : d.IsBracket) :
    d.opener ≠ d.closer ∧ d.opener ≠ ' ' ∧ d.closer ≠ ' ' :=
  have hall : ∀ d ∈ [paren, brace, bracket],
      d.opener ≠ d.closer ∧ d.opener ≠ ' ' ∧ d.closer ≠ ' ' := by decide
  hall d h

theorem IsBracket.opener_plain (h : d.IsBracket) : ReadMode.Plain d.opener :=
  have hall : ∀ d ∈ [paren, brace, bracket], ReadMode.Plain d.opener := by decide
  hall d h

theorem IsBracket.opener_ne_brace (h : d.IsBracket) : d.opener ≠ '}' :=
  have hall : ∀ d ∈ [paren, brace, bracket], d.opener ≠ '}' := by decide
  hall d h

theorem IsBracket.ofOpener? (h : d.IsBracket) : ofOpener? d.opener = some d :=
  have hall : ∀ d ∈ [paren, brace, bracket], Delimiter.ofOpener? d.opener = some d := by decide
  hall d h

theorem IsBracket.closer_not_blank (h : d.IsBracket) : isBlank d.closer = false :=
  have hall : ∀ d ∈ [paren, brace, bracket], isBlank d.closer = false := by decide
  hall d h

theorem ends_iff (hd : d.IsBracket) {c : Char} :
    d.Ends mode depth c ↔ mode.seen c = d.closer ∧ depth ≤ 1 := by
  obtain ⟨hdistinct, -, hblank⟩ := hd.distinct
  rw [Ends, ReadMode.seen]
  by_cases hmode : mode = .code
  · rw [if_pos hmode]
    constructor
    · rintro ⟨-, -, hclose, hdepth⟩
      exact ⟨hclose, hdepth⟩
    · rintro ⟨rfl, hdepth⟩
      exact ⟨hmode, hdistinct.symm, rfl, hdepth⟩
  · rw [if_neg hmode]
    exact ⟨fun h => absurd h.1 hmode, fun h => absurd h.1.symm hblank⟩

theorem surplus_singleton (d : Delimiter) (hdistinct : d.opener ≠ d.closer) (c : Char) :
    d.surplus [c] = if c = d.opener then 1 else if c = d.closer then -1 else 0 := by
  rw [surplus, List.count_singleton, List.count_singleton]
  by_cases hopens : c = d.opener
  · subst hopens
    simp [hdistinct]
  · by_cases hcloses : c = d.closer
    · subst hcloses
      simp [hdistinct.symm]
    · simp [hopens, hcloses]

/-- A character that does not end the search leaves as many delimiters open as the code says. -/
theorem depthAfter_eq (hd : d.IsBracket) {c : Char} (hdepth : 1 ≤ depth)
    (hends : ¬d.Ends mode depth c) :
    (d.depthAfter mode depth c : Int) = depth + d.surplus [mode.seen c] ∧
      1 ≤ d.depthAfter mode depth c := by
  obtain ⟨hdistinct, hblank, hblank'⟩ := hd.distinct
  rw [ends_iff hd] at hends
  rw [depthAfter, surplus_singleton d hdistinct]
  by_cases hmode : mode = .code
  · rw [ReadMode.seen, if_pos hmode] at hends ⊢
    simp only [hmode, true_and]
    split
    · omega
    · split
      next hcloses =>
        have : ¬depth ≤ 1 := fun h => hends ⟨hcloses, h⟩
        omega
      next => omega
  · rw [ReadMode.seen, if_neg hmode, if_neg (Ne.symm hblank), if_neg (Ne.symm hblank')]
    simp only [hmode, false_and, if_false]
    omega

/-- The closer of open delimiters stands where the code in front of it leaves one of them open, and at
no point before has left none. -/
theorem closingFrom_eq_some_iff (hd : d.IsBracket) (hdepth : 1 ≤ depth) :
    d.closingFrom style mode depth text = some n ↔
      (ReadMode.codeOf style mode text)[n]? = some d.closer ∧
        (∀ front, front <+: (ReadMode.codeOf style mode text).take n → 1 ≤ depth + d.surplus front) ∧
        depth + d.surplus ((ReadMode.codeOf style mode text).take n) = 1 := by
  induction text generalizing mode depth n with
  | nil => simp [closingFrom, ReadMode.codeOf]
  | cons c text ih =>
    have hcode : ReadMode.codeOf style mode (c :: text) =
        mode.seen c :: ReadMode.codeOf style (mode.next style c text.head?) text := rfl
    rw [closingFrom_cons_iff, hcode]
    by_cases hends : d.Ends mode depth c
    · obtain ⟨hcloses, hle⟩ := (ends_iff hd).mp hends
      obtain rfl : depth = 1 := by omega
      have hminus : d.surplus [d.closer] = -1 := by
        rw [surplus_singleton d hd.distinct.1, if_neg hd.distinct.1.symm, if_pos rfl]
      rw [hcloses]
      constructor
      · rintro (⟨-, rfl⟩ | ⟨hnot, -⟩)
        · simp
        · exact absurd hends hnot
      · rintro ⟨-, hbefore, -⟩
        cases n with
        | zero => exact Or.inl ⟨hends, rfl⟩
        | succ n =>
          have := hbefore [d.closer] (by simp)
          omega
    · obtain ⟨hafter, hdepth'⟩ := depthAfter_eq hd hdepth hends
      cases n with
      | zero =>
        constructor
        · rintro (⟨h, -⟩ | ⟨-, m, -, hm⟩)
          · exact absurd h hends
          · cases hm
        · rintro ⟨hcloses, -, hone⟩
          refine absurd ((ends_iff hd).mpr ⟨by simpa using hcloses, ?_⟩) hends
          simp at hone
          omega
      | succ n =>
        -- the depth behind the character takes its surplus in, so both sides move on together
        have hstep : ∀ front, (depth : Int) + d.surplus (mode.seen c :: front) =
            d.depthAfter mode depth c + d.surplus front := by
          intro front
          rw [surplus_cons, hafter]
          omega
        simp only [hends, false_and, false_or, not_false_eq_true, true_and, List.getElem?_cons_succ,
          List.take_succ_cons, hstep, Nat.add_right_cancel_iff]
        rw [exists_eq_right', ih hdepth']
        refine and_congr_right fun _ => and_congr_left fun _ => ?_
        constructor
        · intro h front hfront
          cases front with
          | nil =>
            rw [surplus_nil]
            omega
          | cons x front =>
            obtain ⟨rfl, hmore⟩ := List.cons_prefix_cons.mp hfront
            rw [hstep]
            exact h front hmore
        · intro h front hfront
          rw [← hstep]
          exact h _ (List.cons_prefix_cons.mpr ⟨rfl, hfront⟩)

theorem closingFrom_one_iff (hd : d.IsBracket) :
    d.closingFrom style mode 1 text = some n ↔
      (ReadMode.codeOf style mode text)[n]? = some d.closer ∧
        d.Balances ((ReadMode.codeOf style mode text).take n) := by
  rw [closingFrom_eq_some_iff hd (Nat.le_refl 1)]
  refine and_congr_right fun _ => ⟨fun ⟨hbefore, hone⟩ => ⟨fun front hfront => ?_, by omega⟩, fun h => ?_⟩
  · have := hbefore front hfront
    omega
  · have hsettled := h.settled
    refine ⟨fun front hfront => ?_, by omega⟩
    have := h.never_below front hfront
    omega

end Delimiter

open Delimiter ReadMode

variable {style : CommentStyle} {text : Text} {d : Delimiter} {start i j : Nat}

theorem closingIndex_of_opener (hd : d.IsBracket) (h : text[i]? = some d.opener) :
    closingIndex style text i =
      .ok ((d.closingFrom style .code 1 (text.drop (i + 1))).map (i + 1 + ·)) := by
  obtain ⟨hlt, hget⟩ := List.getElem?_eq_some_iff.mp h
  have hdrop : text.drop i = d.opener :: text.drop (i + 1) := by
    rw [List.drop_eq_getElem_cons hlt, hget]
  simp only [closingIndex, hdrop, hd.ofOpener?]

theorem closingIndex_eq_some_iff (hd : d.IsBracket) (h : text[i]? = some d.opener) :
    closingIndex style text i = .ok (some j) ↔
      ∃ k, d.closingFrom style .code 1 (text.drop (i + 1)) = some k ∧ i + 1 + k = j := by
  rw [closingIndex_of_opener hd h, Except.ok.injEq, Option.map_eq_some_iff]

theorem closingIndex_eq_none_iff (hd : d.IsBracket) (h : text[i]? = some d.opener) :
    closingIndex style text i = .ok none ↔
      d.closingFrom style .code 1 (text.drop (i + 1)) = none := by
  rw [closingIndex_of_opener hd h, Except.ok.injEq, Option.map_eq_none_iff]

theorem getElem?_of_closingIndex (hd : d.IsBracket) (hopens : text[i]? = some d.opener)
    (h : closingIndex style text i = .ok (some j)) : i < j ∧ text[j]? = some d.closer := by
  obtain ⟨k, hk, rfl⟩ := (closingIndex_eq_some_iff hd hopens).mp h
  have hcloser := getElem?_of_closingFrom hk
  rw [List.getElem?_drop] at hcloser
  exact ⟨by omega, hcloser⟩

/-- The text with a space in place of each character that a reader who starts at an offset does not read
as code. In front of that offset it stays as it is. -/
def codeFrom (style : CommentStyle) (text : Text) (start : Nat) : Text :=
  text.take start ++ codeOf style .code (text.drop start)

theorem drop_codeFrom (hstart : start ≤ text.length) (n : Nat) :
    (codeFrom style text start).drop (start + n) = (codeOf style .code (text.drop start)).drop n := by
  have hlength : start = (text.take start).length := by rw [List.length_take_of_le hstart]
  rw [codeFrom]
  conv => lhs; arg 1; rw [hlength]
  rw [List.drop_length_add_append]

theorem codeFrom_behind (hd : d.IsBracket) (hstart : start ≤ i)
    (h : (codeFrom style text start)[i]? = some d.opener) :
    text[i]? = some d.opener ∧
      (codeFrom style text start).drop (i + 1) = codeOf style .code (text.drop (i + 1)) := by
  obtain ⟨k, rfl⟩ := Nat.exists_eq_add_of_le hstart
  have hle : start ≤ text.length := by
    have hlt := (List.getElem?_eq_some_iff.mp h).1
    simp only [codeFrom, List.length_append, List.length_take, length_codeOf, List.length_drop] at hlt
    omega
  have hhead : (codeOf style .code (text.drop start))[k]? = some d.opener := by
    rw [← List.head?_drop, ← drop_codeFrom hle, List.head?_drop]
    exact h
  obtain ⟨htext, hbehind⟩ := codeOf_behind hd.opener_plain hhead
  rw [List.getElem?_drop] at htext
  rw [List.drop_drop] at hbehind
  refine ⟨htext, ?_⟩
  rw [Nat.add_assoc, drop_codeFrom hle, hbehind]

theorem closingIndex_eq_iff (hd : d.IsBracket) (hstart : start ≤ i)
    (h : (codeFrom style text start)[i]? = some d.opener) :
    closingIndex style text i = .ok (some j) ↔
      i < j ∧ (codeFrom style text start)[j]? = some d.closer ∧
        d.Balances (slice (codeFrom style text start) (i + 1) j) := by
  obtain ⟨htext, hbehind⟩ := codeFrom_behind hd hstart h
  have hat : ∀ k, ((codeFrom style text start).drop (i + 1))[k]? =
      (codeFrom style text start)[i + 1 + k]? := fun k => List.getElem?_drop
  have hslice : ∀ k, ((codeFrom style text start).drop (i + 1)).take k =
      slice (codeFrom style text start) (i + 1) (i + 1 + k) := by
    intro k
    rw [slice, List.drop_take, Nat.add_sub_cancel_left]
  rw [closingIndex_eq_some_iff hd htext]
  simp only [closingFrom_one_iff hd, ← hbehind, hat, hslice]
  constructor
  · rintro ⟨k, ⟨hcloser, hbalances⟩, rfl⟩
    exact ⟨by omega, hcloser, hbalances⟩
  · rintro ⟨hlt, hcloser, hbalances⟩
    obtain ⟨k, rfl⟩ := Nat.exists_eq_add_of_le hlt
    exact ⟨k, ⟨hcloser, hbalances⟩, rfl⟩

end CodeGraft
