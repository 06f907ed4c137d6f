import CodeGraft.Pattern.Basic

/-!
# Stretches that a pattern fits

To know that an attempt succeeds, it is enough to know one stretch that the pattern fits. That a
pattern occurs in a text means that it fits at some place in it.
-/

namespace CodeGraft

open Text

namespace Pattern

variable {p q : Pattern} {stretch behind : Text} {c : Cursor} {k : Cursor → Option Cursor}

/-- A pattern fits a stretch in front of a text: tried there, it is accepted by whoever accepts the
place behind the stretch. -/
def Fits (p : Pattern) (stretch behind : Text) : Prop :=
  ∀ (c : Cursor) (k : Cursor → Option Cursor), c.rest = stretch ++ behind →
    (∀ c' : Cursor, c'.rest = behind → (k c').isSome = true) → (p.attempt c k).isSome = true

theorem fits_nothing : Fits nothing [] behind := by
  intro c k hrest hk
  exact hk c hrest

theorem attempt_one {accepts : Char → Bool} {x : Char} {rest : Text} (hrest : c.rest = x :: rest)
    (hx : accepts x = true) : (one accepts).attempt c k = k c.next := by
  simp only [attempt, hrest, hx, if_true]

theorem fits_one {accepts : Char → Bool} {x : Char} (hx : accepts x = true) :
    Fits (one accepts) [x] behind := by
  intro c k hrest hk
  have hcons : c.rest = x :: behind := hrest
  rw [attempt_one hcons hx]
  exact hk _ (by simp [Cursor.next, hcons])

theorem Fits.seq {front back : Text} (hp : p.Fits front (back ++ behind))
    (hq : q.Fits back behind) : (p.seq q).Fits (front ++ back) behind := by
  intro c k hrest hk
  rw [List.append_assoc] at hrest
  exact hp c _ hrest fun c' hc' => hq c' k hc' hk

theorem Fits.alt_left (hp : p.Fits stretch behind) : (p.alt q).Fits stretch behind := by
  intro c k hrest hk
  obtain ⟨found, hfound⟩ := Option.isSome_iff_exists.mp (hp c k hrest hk)
  simp [attempt, hfound]

theorem Fits.alt_right (hq : q.Fits stretch behind) : (p.alt q).Fits stretch behind := by
  intro c k hrest hk
  simp only [attempt]
  split
  · rfl
  · exact hq c k hrest hk

theorem fits_many_one {accepts : Char → Bool} (h : ∀ x ∈ stretch, accepts x = true) :
    Fits (many (one accepts)) stretch behind := by
  have hrepeat : ∀ (front bound : Text) (c : Cursor) (k : Cursor → Option Cursor),
      (∀ x ∈ front, accepts x = true) → front.length ≤ bound.length → c.rest = front ++ behind →
      (∀ c' : Cursor, c'.rest = behind → (k c').isSome = true) →
      (repeatMost (one accepts).attempt bound c k).isSome = true := by
    intro front bound
    induction bound generalizing front with
    | nil =>
      intro c k _ hbound hrest hk
      obtain rfl := List.eq_nil_of_length_eq_zero (Nat.le_zero.mp hbound)
      exact hk c hrest
    | cons b bound ih =>
      intro c k hfront hbound hrest hk
      rw [repeatMost]
      split
      · rfl
      next hnone =>
        cases front with
        | nil => exact hk c hrest
        | cons x front =>
          -- the turn over the next character must have been accepted
          obtain ⟨hx, hfront⟩ := List.forall_mem_cons.mp hfront
          have hcons : c.rest = x :: (front ++ behind) := hrest
          have hnext : c.next.rest = front ++ behind := by simp [Cursor.next, hcons]
          have hoffset : c.offset < c.next.offset := by simp [Cursor.next, hcons]
          have hturn := ih front c.next k hfront (by simpa using hbound) hnext hk
          rw [attempt_one hcons hx, if_pos hoffset] at hnone
          rw [hnone] at hturn
          cases hturn
  intro c k hrest hk
  exact hrepeat stretch c.rest c k h (by simp [hrest]) hrest hk

theorem fits_literal (text : Text) : Fits (literal text) text behind := by
  induction text with
  | nil => exact fits_nothing
  | cons x text ih => exact Fits.seq (fits_one (by simp)) ih

theorem fits_check {holds : Option Char → Text → Bool} (h : ∀ before, holds before behind = true) :
    Fits (check holds) [] behind := by
  intro c k hrest hk
  rw [attempt, hrest, List.nil_append, h, if_pos rfl]
  exact hk c hrest

theorem searchFrom_isSome_iff {offset : Nat} {before : Option Char} {text : Text} :
    (p.searchFrom offset before text).isSome = true ↔ ∃ front rest, text = front ++ rest ∧
      (p.attempt ⟨offset + front.length, front.getLast?.or before, rest, []⟩ some).isSome =
        true := by
  induction text generalizing offset before with
  | nil =>
    rw [searchFrom, Option.isSome_map]
    constructor
    · intro h
      exact ⟨[], [], rfl, h⟩
    · intro h
      obtain ⟨front, rest, hnil, h⟩ := h
      obtain ⟨rfl, rfl⟩ := List.append_eq_nil_iff.mp hnil.symm
      exact h
  | cons x text ih =>
    cases hhead : p.attempt ⟨offset, before, x :: text, []⟩ some with
    | some stop =>
      simp only [searchFrom, hhead, Option.isSome_some, true_iff]
      exact ⟨[], x :: text, rfl, by simp [hhead]⟩
    | none =>
      have hplace (front rest : Text) :
          (⟨offset + 1 + front.length, front.getLast?.or (some x), rest, []⟩ : Cursor) =
            ⟨offset + (x :: front).length, (x :: front).getLast?.or before, rest, []⟩ := by
        simp only [Cursor.mk.injEq, List.length_cons, List.getLast?_cons, Option.some_or, and_true]
        refine ⟨by omega, ?_⟩
        cases front.getLast? <;> rfl
      simp only [searchFrom, hhead, ih, hplace]
      constructor
      · intro h
        obtain ⟨front, rest, rfl, h⟩ := h
        exact ⟨x :: front, rest, rfl, h⟩
      · intro h
        obtain ⟨front, rest, htext, h⟩ := h
        cases front with
        | nil =>
          rw [List.nil_append] at htext
          subst htext
          rw [List.length_nil, List.getLast?_nil, Option.none_or, Nat.add_zero, hhead] at h
          cases h
        | cons y front =>
          rw [List.cons_append] at htext
          obtain ⟨rfl, rfl⟩ := List.cons.inj htext
          exact ⟨front, rest, rfl, h⟩

theorem occursIn_iff {text : Text} :
    p.occursIn text = true ↔ ∃ front rest, text = front ++ rest ∧
      (p.attempt ⟨front.length, front.getLast?, rest, []⟩ some).isSome = true := by
  rw [occursIn, search?, Cursor.start, searchFrom_isSome_iff]
  simp only [Nat.zero_add, Option.or_none]

end Pattern

end CodeGraft
