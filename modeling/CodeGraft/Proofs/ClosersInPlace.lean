import CodeGraft.Proofs.LiveCode

/-!
# Closers wherever a delimiter stands

Which closer matches a delimiter depends on nothing but the stretch between the two: wherever that stretch
stands, the search for the closer reads it in the same way and ends at its last character. No step of the
search looks or leaps beyond the closer that it finds.
-/

namespace CodeGraft

open Text

variable {d : Delimiter} {style : CommentStyle} {mode : ReadMode} {text : Text} {depth i j n : Nat}

namespace Delimiter

theorem closingFrom_append_right (h : d.closingFrom style mode depth text = some n) (tail : Text) :
    d.closingFrom style mode depth (text ++ tail) = some n := by
  induction text generalizing mode depth n with
  | nil => cases h
  | cons c text ih =>
    rw [closingFrom_cons_iff] at h
    rw [List.cons_append, closingFrom_cons_iff]
    rcases h with h | ⟨hends, m, hm, rfl⟩
    · exact Or.inl h
    · -- a closer further on is a character to look ahead at, so that the tail is not looked at
      have hhead : (text ++ tail).head? = text.head? := by
        cases text with
        | nil => cases hm
        | cons x text => rfl
      rw [hhead]
      exact Or.inr ⟨hends, m, ih hm, rfl⟩

/-- A closer is found in the stretch that ends with it, whatever follows. -/
theorem closingFrom_take (h : d.closingFrom style mode depth text = some n) (tail : Text) :
    d.closingFrom style mode depth (text.take (n + 1) ++ tail) = some n := by
  have hlt := (List.getElem?_eq_some_iff.mp (getElem?_of_closingFrom h)).1
  rw [← List.take_append_drop (n + 1) text] at h
  refine closingFrom_append_right (closingFrom_append h ?_) tail
  rw [List.length_take_of_le hlt]
  exact Nat.lt_succ_self n

end Delimiter

theorem closingIndex_cases (h : closingIndex style text i = .ok (some j)) :
    ∃ c rest d n, text.drop i = c :: rest ∧ Delimiter.ofOpener? c = some d ∧
      d.closingFrom style .code 1 rest = some n ∧ j = i + 1 + n := by
  rw [closingIndex] at h
  split at h
  next => cases h
  next c rest hdrop =>
    split at h
    next => cases h
    next d hopener =>
      simp only [Except.ok.injEq, Option.map_eq_some_iff] at h
      obtain ⟨n, hn, rfl⟩ := h
      exact ⟨c, rest, d, n, hdrop, hopener, hn, rfl⟩

/-- The stretch from a delimiter to its closer holds its closer at its end wherever it stands: only what is
delimited decides where a delimiter is closed. -/
theorem closingIndex_in_place (h : closingIndex style text i = .ok (some j)) (front back : Text) :
    closingIndex style (front ++ slice text i (j + 1) ++ back) front.length =
      .ok (some (front.length + (j - i))) := by
  obtain ⟨c, rest, d, n, hdrop, hopener, hn, rfl⟩ := closingIndex_cases h
  have hslice : slice text i (i + 1 + n + 1) = c :: rest.take (n + 1) := by
    rw [slice, List.drop_take, hdrop, show i + 1 + n + 1 - i = n + 1 + 1 by omega, List.take_succ_cons]
  have hplace : (front ++ slice text i (i + 1 + n + 1) ++ back).drop front.length =
      c :: (rest.take (n + 1) ++ back) := by
    rw [hslice, List.append_assoc, List.drop_left, List.cons_append]
  have hlength : front.length + 1 + n = front.length + (i + 1 + n - i) := by omega
  simp only [closingIndex, hplace, hopener, Delimiter.closingFrom_take hn, Option.map_some, hlength]

/-- A call with brackets in a literal and in a comment, behind an open literal and in front of an open
comment. -/
theorem closingIndex_in_place_of_call :
    let text : Text := "f('(\\')', /* ) */ g(a)) + ')'"
    closingIndex .slashes text 1 = .ok (some 22) ∧
      closingIndex .slashes ("x = \"" ++ slice text 1 (22 + 1) ++ "/* )") 5 = .ok (some (5 + (22 - 1))) := by
  intro text
  have h : closingIndex .slashes text 1 = .ok (some 22) := by decide +kernel
  exact ⟨h, closingIndex_in_place h "x = \"" "/* )"⟩

end CodeGraft
