import CodeGraft.Proofs.LivePlaces
import Mathlib.Data.Nat.Count
import Mathlib.Order.Bounds.Basic

/-!
# Closers at live places

The closer of a delimiter is the first live place up to which as many delimiters were closed as opened, so
a delimiter without such a place has none. A delimiter that is nested in another is closed in front of the
other one's closer.
-/

namespace CodeGraft

open Text Delimiter ReadMode

variable {style : CommentStyle} {mode : ReadMode} {c : Char} {text front : Text} {d : Delimiter}
  {start i j k n depth : Nat}

/-- How often a character stands at live offsets up to a given one. -/
def liveCount (style : CommentStyle) (text : Text) (start : Nat) (c : Char) (offset : Nat) : Nat :=
  Nat.count (fun p => Live style text start p ∧ text[p]? = some c) (offset + 1)

/-- The live places up to which as many delimiters were closed as opened. -/
def evenPlaces (d : Delimiter) (style : CommentStyle) (text : Text) (start : Nat) : Set Nat :=
  {p | Live style text start p ∧
    liveCount style text start d.opener p = liveCount style text start d.closer p}

theorem count_getElem?_eq (code : Text) (c : Char) (n : Nat) :
    Nat.count (fun k => code[k]? = some c) n = (code.take n).count c := by
  induction n with
  | zero => rfl
  | succ n ih =>
    rw [Nat.count_succ, ih, List.take_add_one, List.count_append]
    cases code[n]? with
    | none => simp
    | some x => simp [List.count_singleton]

theorem liveCount_eq (hc : c ≠ ' ') (hline : c ≠ '\n') (n : Nat) :
    liveCount style text start c (start + n) =
      ((codeOf style .code (text.drop start)).take (n + 1)).count c := by
  have hbefore : Nat.count (fun p => Live style text start p ∧ text[p]? = some c) start = 0 := by
    rw [Nat.count_iff_forall_not]
    intro p hp hlive
    exact absurd (live_iff.mp hlive.1).1 (Nat.not_le_of_lt hp)
  rw [liveCount, Nat.add_assoc, Nat.count_add, hbefore, Nat.zero_add, ← count_getElem?_eq]
  simp only [getElem?_codeOf_drop_iff hc hline]

namespace Delimiter

theorem IsBracket.ne_feed (h : d.IsBracket) : d.opener ≠ '\n' ∧ d.closer ≠ '\n' :=
  have hall : ∀ d ∈ [paren, brace, bracket], d.opener ≠ '\n' ∧ d.closer ≠ '\n' := by decide
  hall d h

/-- A stretch of code that closes all open delimiters holds the closer. -/
theorem exists_closingFrom (hd : d.IsBracket) (hdepth : 1 ≤ depth)
    (hfront : front <+: codeOf style mode text) (hcloses : depth + d.surplus front ≤ 0) :
    ∃ n < front.length, d.closingFrom style mode depth text = some n := by
  induction text generalizing mode depth front with
  | nil =>
    obtain rfl := List.prefix_nil.mp hfront
    rw [surplus_nil] at hcloses
    omega
  | cons c text ih =>
    cases front with
    | nil =>
      rw [surplus_nil] at hcloses
      omega
    | cons x front =>
      obtain ⟨rfl, hmore⟩ := List.cons_prefix_cons.mp hfront
      by_cases hends : d.Ends mode depth c
      · exact ⟨0, Nat.succ_pos _, closingFrom_cons_iff.mpr (Or.inl ⟨hends, rfl⟩)⟩
      · obtain ⟨hafter, hdepth'⟩ := depthAfter_eq hd hdepth hends
        rw [surplus_cons] at hcloses
        obtain ⟨n, hn, hat⟩ := ih hdepth' hmore (by omega)
        exact ⟨n + 1, Nat.succ_lt_succ hn, closingFrom_cons_iff.mpr (Or.inr ⟨hends, n, hat, rfl⟩)⟩

end Delimiter

/-! ### The first even place -/

theorem codeOf_drop_of_opener (hd : d.IsBracket) (h : text[i]? = some d.opener) :
    codeOf style .code (text.drop i) = d.opener :: codeOf style .code (text.drop (i + 1)) := by
  obtain ⟨hlt, hat⟩ := List.getElem?_eq_some_iff.mp h
  rw [List.drop_eq_getElem_cons hlt, hat, codeOf, hd.opener_plain.next]
  rfl

theorem mem_evenPlaces_iff (hd : d.IsBracket) (hopens : text[i]? = some d.opener) :
    j ∈ evenPlaces d style text i ↔ ∃ k, j = i + 1 + k ∧ Live style text i j ∧
      d.surplus ((codeOf style .code (text.drop (i + 1))).take (k + 1)) = -1 := by
  obtain ⟨hdistinct, hblank, hblank'⟩ := hd.distinct
  have heven : ∀ n, liveCount style text i d.opener (i + n) = liveCount style text i d.closer (i + n) ↔
      d.surplus ((codeOf style .code (text.drop (i + 1))).take n) = -1 := by
    intro n
    have hone : d.surplus [d.opener] = 1 := by rw [surplus_singleton d hdistinct, if_pos rfl]
    rw [liveCount_eq hblank hd.ne_feed.1, liveCount_eq hblank' hd.ne_feed.2,
      codeOf_drop_of_opener hd hopens, List.take_succ_cons, ← Int.natCast_inj, ← Int.sub_eq_zero]
    change d.surplus _ = 0 ↔ _
    rw [surplus_cons, hone]
    omega
  constructor
  · rintro ⟨hlive, hcounts⟩
    obtain ⟨n, rfl⟩ := Nat.exists_eq_add_of_le (live_iff.mp hlive).1
    rw [heven] at hcounts
    cases n with
    | zero => cases hcounts
    | succ k => exact ⟨k, by omega, hlive, hcounts⟩
  · rintro ⟨k, rfl, hlive, hsurplus⟩
    refine ⟨hlive, ?_⟩
    rw [Nat.add_assoc, Nat.add_comm 1 k, heven]
    exact hsurplus

theorem isLeast_evenPlaces (hd : d.IsBracket) (hopens : text[i]? = some d.opener)
    (h : d.closingFrom style .code 1 (text.drop (i + 1)) = some k) :
    IsLeast (evenPlaces d style text i) (i + 1 + k) := by
  obtain ⟨hcloser, hbalances⟩ := (closingFrom_one_iff hd).mp h
  obtain ⟨hdistinct, -, hblank⟩ := hd.distinct
  constructor
  · refine (mem_evenPlaces_iff hd hopens).mpr ⟨k, rfl, ?_, ?_⟩
    · have hlive : (codeOf style .code (text.drop i))[1 + k]? = some d.closer := by
        rw [codeOf_drop_of_opener hd hopens, Nat.add_comm 1 k, List.getElem?_cons_succ, hcloser]
      rw [Nat.add_assoc]
      exact ((getElem?_codeOf_drop_iff hblank hd.ne_feed.2).mp hlive).1
    · rw [List.take_add_one, hcloser, surplus_append, hbalances.settled, Option.toList_some,
        surplus_singleton d hdistinct, if_neg hdistinct.symm, if_pos rfl]
      rfl
  · intro p hp
    obtain ⟨m, rfl, -, hsurplus⟩ := (mem_evenPlaces_iff hd hopens).mp hp
    by_contra hlt
    -- in front of the closer the code never closes more than it opens
    have := hbalances.never_below _ (List.take_prefix_take_left (show m + 1 ≤ k by omega))
    omega

theorem exists_of_mem_evenPlaces (hd : d.IsBracket) (hopens : text[i]? = some d.opener)
    (h : j ∈ evenPlaces d style text i) :
    ∃ k, d.closingFrom style .code 1 (text.drop (i + 1)) = some k := by
  obtain ⟨m, -, -, hsurplus⟩ := (mem_evenPlaces_iff hd hopens).mp h
  obtain ⟨k, -, hk⟩ := exists_closingFrom hd (Nat.le_refl 1) (List.take_prefix (m + 1) _)
    (by rw [hsurplus]; decide)
  exact ⟨k, hk⟩

theorem exists_nested_closer (hd : d.IsBracket)
    (h : d.closingFrom style .code 1 text = some k) (hn : n < k)
    (hopens : (codeOf style .code text)[n]? = some d.opener) :
    ∃ m, d.closingFrom style .code 1 (text.drop (n + 1)) = some m ∧ n + 1 + m < k := by
  obtain ⟨-, hbalances⟩ := (closingFrom_one_iff hd).mp h
  obtain ⟨-, hbehind⟩ := codeOf_behind hd.opener_plain hopens
  have hone : d.surplus [d.opener] = 1 := by rw [surplus_singleton d hd.distinct.1, if_pos rfl]
  set code := codeOf style .code text
  -- the code up to the outer closer is settled, and so the part behind the opener closes it
  have hsplit : code.take k = code.take (n + 1) ++ (code.drop (n + 1)).take (k - (n + 1)) := by
    rw [← List.take_add]
    congr
    omega
  have hsettled := hbalances.settled
  rw [hsplit, List.take_add_one, hopens, surplus_append, surplus_append, Option.toList_some, hone]
    at hsettled
  have hbefore := hbalances.never_below (code.take n) (List.take_prefix_take_left hn.le)
  have hprefix : (code.drop (n + 1)).take (k - (n + 1)) <+: codeOf style .code (text.drop (n + 1)) := by
    rw [← hbehind]
    exact List.take_prefix ..
  obtain ⟨m, hm, hat⟩ := exists_closingFrom hd (Nat.le_refl 1) hprefix (by omega)
  refine ⟨m, hat, ?_⟩
  rw [List.length_take] at hm
  omega

/-- The closer of a delimiter stands at the first live place up to which as many delimiters of its kind
were closed as opened, and the delimiter has no closer exactly if there is no such place. A delimiter of the
kind that is opened at a live place in between has its closer, and that closer stands further in front. -/
theorem closingIndex_live (hd : d.IsBracket) (hopens : text[i]? = some d.opener) :
    (∀ j, closingIndex style text i = .ok (some j) ↔ IsLeast (evenPlaces d style text i) j) ∧
      (closingIndex style text i = .ok none ↔ evenPlaces d style text i = ∅) ∧
      ∀ j, closingIndex style text i = .ok (some j) →
        ∀ inner, i < inner → inner < j → Live style text i inner → text[inner]? = some d.opener →
          ∃ k, closingIndex style text inner = .ok (some k) ∧ k < j := by
  refine ⟨fun j => ?_, ?_, ?_⟩
  · rw [closingIndex_eq_some_iff hd hopens]
    constructor
    · rintro ⟨k, hk, rfl⟩
      exact isLeast_evenPlaces hd hopens hk
    · intro hleast
      obtain ⟨k, hk⟩ := exists_of_mem_evenPlaces hd hopens hleast.1
      exact ⟨k, hk, (isLeast_evenPlaces hd hopens hk).unique hleast⟩
  · rw [closingIndex_eq_none_iff hd hopens, Set.eq_empty_iff_forall_notMem,
      Option.eq_none_iff_forall_ne_some]
    constructor
    · intro hnone j hj
      obtain ⟨k, hk⟩ := exists_of_mem_evenPlaces hd hopens hj
      exact hnone k hk
    · intro hempty k hk
      exact hempty _ (isLeast_evenPlaces hd hopens hk).1
  · intro j hj inner hlt hgt hlive hinner
    obtain ⟨k, hk, rfl⟩ := (closingIndex_eq_some_iff hd hopens).mp hj
    obtain ⟨n, rfl⟩ := Nat.exists_eq_add_of_le hlt
    have hcode : (codeOf style .code (text.drop (i + 1)))[n]? = some d.opener := by
      have hat : (codeOf style .code (text.drop i))[n + 1]? = some d.opener :=
        (getElem?_codeOf_drop_iff hd.distinct.2.1 hd.ne_feed.1).mpr
          ⟨by rwa [Nat.add_comm n, ← Nat.add_assoc], by rwa [Nat.add_comm n, ← Nat.add_assoc]⟩
      rwa [codeOf_drop_of_opener hd hopens, List.getElem?_cons_succ] at hat
    obtain ⟨m, hm, hless⟩ := exists_nested_closer hd hk (by omega) hcode
    rw [List.drop_drop] at hm
    exact ⟨_, (closingIndex_eq_some_iff hd hinner).mpr ⟨m, hm, rfl⟩, by omega⟩

/-- A parenthesis in a call whose string literal and comment hold closers: the one of the inner
parenthesis stands in front of the outer one's. -/
theorem closingIndex_live_of_call :
    ((∀ j, closingIndex .hash "f((')'),# )\n 2)".toList 1 = .ok (some j) ↔
        IsLeast (evenPlaces paren .hash "f((')'),# )\n 2)".toList 1) j) ∧
      (closingIndex .hash "f((')'),# )\n 2)".toList 1 = .ok none ↔
        evenPlaces paren .hash "f((')'),# )\n 2)".toList 1 = ∅) ∧
      ∀ j, closingIndex .hash "f((')'),# )\n 2)".toList 1 = .ok (some j) →
        ∀ inner, 1 < inner → inner < j → Live .hash "f((')'),# )\n 2)".toList 1 inner →
          "f((')'),# )\n 2)".toList[inner]? = some '(' →
          ∃ k, closingIndex .hash "f((')'),# )\n 2)".toList inner = .ok (some k) ∧ k < j) ∧
    closingIndex .hash "f((')'),# )\n 2)".toList 1 = .ok (some 14) ∧
    Live .hash "f((')'),# )\n 2)".toList 1 2 ∧
    closingIndex .hash "f((')'),# )\n 2)".toList 2 = .ok (some 6) :=
  ⟨closingIndex_live (d := paren) (List.mem_cons_self ..) rfl, by decide, by decide, by decide⟩

end CodeGraft
