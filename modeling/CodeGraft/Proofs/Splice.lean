import CodeGraft.Edit.Basic

/-!
# Splicing edits into a text

Edits that stay in a text and do not overlap can always be applied. The result has the same gaps as
the text, the stretches in front of, between and behind the edits, with the replacements in them
in place of what the edits replace.
-/

namespace CodeGraft

namespace Text

theorem slice_append_drop (text : Text) {start stop : Nat} (h : start ≤ stop) :
    slice text start stop ++ text.drop stop = text.drop start := by
  have hstop : start + (stop - start) = stop := by omega
  rw [slice, List.drop_take]
  conv => lhs; rw [← hstop, ← List.drop_drop, hstop]
  exact List.take_append_drop _ _

theorem slice_append_slice (text : Text) {i j k : Nat} (hij : i ≤ j) (hjk : j ≤ k) :
    slice text i j ++ slice text j k = slice text i k := by
  obtain ⟨m, rfl⟩ := Nat.exists_eq_add_of_le hij
  obtain ⟨n, rfl⟩ := Nat.exists_eq_add_of_le hjk
  have hwhole : i + m + n - i = m + n := by omega
  simp only [slice, List.drop_take, Nat.add_sub_cancel_left, hwhole]
  rw [List.take_add, List.drop_drop]

theorem slice_succ {text : Text} {i : Nat} {c : Char} (h : text[i]? = some c) :
    slice text i (i + 1) = [c] := by
  obtain ⟨hlt, hget⟩ := List.getElem?_eq_some_iff.mp h
  rw [slice, List.drop_take, Nat.add_sub_cancel_left, List.drop_eq_getElem_cons hlt, hget]
  rfl

theorem lineEnd_append (lead rest : Text) :
    lineEnd (lead ++ rest) lead.length = lead.length + (rest.takeWhile (· ≠ '\n')).length := by
  have hle := (List.takeWhile_prefix (· ≠ '\n') (l := rest)).length_le
  rw [lineEnd, List.drop_left, lineRest, List.length_append]
  omega

theorem slice_isInfix_drop (text : Text) {start i : Nat} (stop : Nat) (h : start ≤ i) :
    slice text i stop <:+: text.drop start := by
  have hi : start + (i - start) = i := by omega
  rw [slice, List.drop_take, ← hi, ← List.drop_drop]
  exact (List.take_prefix _ _).isInfix.trans (List.drop_suffix _ _).isInfix

theorem slice_isInfix_slice (text : Text) {start stop i j : Nat} (hi : start ≤ i) (hj : j ≤ stop) :
    slice text i j <:+: slice text start stop := by
  have hslice : slice text i j = slice (text.take stop) i j := by
    rw [slice, slice, List.take_take, Nat.min_eq_left hj]
  rw [hslice]
  exact slice_isInfix_drop (text.take stop) j hi

end Text

namespace Edit

/-! ### Edits side by side -/

/-- Whether two edits share a character, or one of them lies strictly inside the other. -/
def overlaps (a b : Edit) : Bool := a.start < b.stop && b.start < a.stop

theorem overlaps_comm (a b : Edit) : a.overlaps b = b.overlaps a := by
  simp [overlaps, Bool.and_comm]

theorem overlaps_eq_false_iff {a b : Edit} :
    a.overlaps b = false ↔ ¬(a.start < b.stop ∧ b.start < a.stop) := by
  simp [overlaps]

theorem inRange_iff {length : Nat} {e : Edit} :
    e.inRange length = true ↔ 0 ≤ e.start ∧ e.start ≤ e.stop ∧ e.stop ≤ length := by
  simp [inRange, and_assoc]

theorem precedes_iff {a b : Edit} :
    a.precedes b = true ↔ a.start < b.start ∨ (a.start = b.start ∧ a.stop ≤ b.stop) := by
  simp [precedes]

/-- Of two edits with one start the empty one comes first, so the order of the list suffices. -/
theorem stop_le_start {length : Nat} {a b : Edit} (hb : b.inRange length = true)
    (hab : a.precedes b = true) (hno : a.overlaps b = false) : a.stop ≤ b.start := by
  rw [inRange_iff] at hb
  rw [precedes_iff] at hab
  rw [overlaps_eq_false_iff] at hno
  omega

/-- Edits that can be applied to a text: none leaves it, and no two overlap. -/
structure Applicable (text : Text) (edits : List Edit) : Prop where
  inRange : ∀ e ∈ edits, e.inRange text.length = true
  disjoint : edits.Pairwise fun a b => a.overlaps b = false

theorem Applicable.perm {text : Text} {edits edits' : List Edit} (h : Applicable text edits)
    (hperm : edits'.Perm edits) : Applicable text edits' := by
  refine ⟨fun e he => h.inRange e (hperm.mem_iff.mp he), ?_⟩
  refine (List.Perm.pairwise_iff ?_ hperm).mpr h.disjoint
  intro a b hab
  rw [overlaps_comm]
  exact hab

theorem applicable_singleton {text : Text} (replacement : Text) {start stop : Nat}
    (h : start ≤ stop) (hs : stop ≤ text.length) :
    Applicable text [⟨start, stop, replacement⟩] := by
  refine ⟨?_, List.pairwise_singleton _ _⟩
  intro e he
  rw [List.mem_singleton.mp he, inRange_iff]
  dsimp only
  omega

theorem sorted_perm (edits : List Edit) : (sorted edits).Perm edits :=
  List.mergeSort_perm edits precedes

/-- Edits of a text from `reached` on, each at or behind the end of those before it. -/
structure InOrder (text : Text) (reached : Nat) (edits : List Edit) : Prop where
  inRange : ∀ e ∈ edits, e.inRange text.length = true
  reached_le : ∀ e ∈ edits, (reached : Int) ≤ e.start
  ordered : edits.Pairwise fun a b => a.stop ≤ b.start

theorem InOrder.head {text : Text} {reached : Nat} {e : Edit} {edits : List Edit}
    (h : InOrder text reached (e :: edits)) :
    reached ≤ e.start.toNat ∧ e.start.toNat ≤ e.stop.toNat := by
  have hin := inRange_iff.mp (h.inRange e (List.mem_cons_self ..))
  have hle := h.reached_le e (List.mem_cons_self ..)
  omega

theorem InOrder.tail {text : Text} {reached : Nat} {e : Edit} {edits : List Edit}
    (h : InOrder text reached (e :: edits)) : InOrder text e.stop.toNat edits := by
  obtain ⟨hfirst, hrest⟩ := List.pairwise_cons.mp h.ordered
  have hin := inRange_iff.mp (h.inRange e (List.mem_cons_self ..))
  refine ⟨fun a ha => h.inRange a (List.mem_cons_of_mem _ ha), ?_, hrest⟩
  intro a ha
  have := hfirst a ha
  omega

theorem Applicable.inOrder {text : Text} {edits : List Edit} (h : Applicable text edits) :
    InOrder text 0 (sorted edits) := by
  have hs := h.perm (sorted_perm edits)
  refine ⟨hs.inRange, ?_, ?_⟩
  · intro e he
    exact (inRange_iff.mp (hs.inRange e he)).1
  · refine List.Pairwise.imp_of_mem ?_ ((sorted_pairwise edits).and hs.disjoint)
    intro a b _ hb hab
    exact stop_le_start (hs.inRange b hb) hab.1 hab.2

/-- The stretches of a text from `reached` on that edits in order leave alone: one in front of each
edit and one behind the last. -/
def gaps (text : Text) (reached : Nat) : List Edit → List Text
  | [] => [text.drop reached]
  | e :: edits => Text.slice text reached e.start.toNat :: gaps text e.stop.toNat edits

def weave : (gaps pieces : List Text) → Text
  | [], _ => []
  | gap :: gaps, [] => gap ++ weave gaps []
  | gap :: gaps, piece :: pieces => gap ++ piece ++ weave gaps pieces

def target (text : Text) (e : Edit) : Text := Text.slice text e.start.toNat e.stop.toNat

theorem spliceFrom_eq_weave {text : Text} {reached : Nat} {edits : List Edit}
    (h : InOrder text reached edits) :
    spliceFrom text reached edits =
      .ok (weave (gaps text reached edits) (edits.map (·.replacement))) := by
  induction edits generalizing reached with
  | nil => simp [spliceFrom, gaps, weave]
  | cons e edits ih =>
    have hle := h.reached_le e (List.mem_cons_self ..)
    simp only [spliceFrom, gaps, weave, List.map_cons]
    rw [if_neg (by omega), ih h.tail]

theorem weave_targets {text : Text} {reached : Nat} {edits : List Edit}
    (h : InOrder text reached edits) :
    weave (gaps text reached edits) (edits.map (target text)) = text.drop reached := by
  induction edits generalizing reached with
  | nil => simp [gaps, weave]
  | cons e edits ih =>
    obtain ⟨hstart, hstop⟩ := h.head
    simp only [gaps, weave, List.map_cons, target]
    rw [ih h.tail, List.append_assoc, Text.slice_append_drop text hstop,
      Text.slice_append_drop text hstart]

theorem slice_isInfix_weave {text : Text} {reached i j : Nat} {edits : List Edit}
    {pieces : List Text} (h : InOrder text reached edits) (hlen : pieces.length = edits.length)
    (hi : reached ≤ i) (hfree : ∀ e ∈ edits, e.stop ≤ i ∨ (j : Int) ≤ e.start) :
    Text.slice text i j <:+: weave (gaps text reached edits) pieces := by
  induction edits generalizing reached pieces with
  | nil =>
    obtain rfl := List.eq_nil_of_length_eq_zero hlen
    simpa [gaps, weave] using Text.slice_isInfix_drop text j hi
  | cons e edits ih =>
    cases pieces with
    | nil => simp at hlen
    | cons piece pieces =>
      simp only [gaps, weave]
      rcases hfree e (List.mem_cons_self ..) with hbehind | hbefore
      · have hrest := ih h.tail (by simpa using hlen) (by omega)
          fun a ha => hfree a (List.mem_cons_of_mem _ ha)
        exact hrest.trans (List.suffix_append _ _).isInfix
      · have hj : j ≤ e.start.toNat := by omega
        have hgap := Text.slice_isInfix_slice text hi hj
        rw [List.append_assoc]
        exact hgap.trans (List.prefix_append _ _).isInfix

theorem apply_eq_weave {text : Text} {edits : List Edit} (h : Applicable text edits) :
    apply text edits =
      .ok (weave (gaps text 0 (sorted edits)) ((sorted edits).map (·.replacement))) := by
  have hnone : edits.find? (fun e => !e.inRange text.length) = none := by
    rw [List.find?_eq_none]
    intro e he
    simp [h.inRange e he]
  rw [apply, hnone]
  exact spliceFrom_eq_weave h.inOrder

theorem eq_weave_targets {text : Text} {edits : List Edit} (h : Applicable text edits) :
    text = weave (gaps text 0 (sorted edits)) ((sorted edits).map (target text)) := by
  rw [weave_targets h.inOrder, List.drop_zero]

/-- A stretch that no edit overlaps is kept. An empty stretch is kept in any case. -/
theorem slice_isInfix_of_apply {text result : Text} {edits : List Edit} {i j : Nat}
    (h : Applicable text edits) (hresult : apply text edits = .ok result)
    (hfree : ∀ e ∈ edits, ¬(e.start < j ∧ (i : Int) < e.stop)) :
    Text.slice text i j <:+: result := by
  rw [apply_eq_weave h] at hresult
  cases hresult
  by_cases hij : i < j
  · refine slice_isInfix_weave h.inOrder (by simp) (Nat.zero_le i) ?_
    intro e he
    have hno := hfree e (mem_sorted.mp he)
    have hin := inRange_iff.mp (h.inRange e (mem_sorted.mp he))
    omega
  · have hempty : Text.slice text i j = [] := by
      apply List.eq_nil_of_length_eq_zero
      rw [Text.slice_length]
      omega
    rw [hempty]
    exact List.nil_infix

end Edit

end CodeGraft
