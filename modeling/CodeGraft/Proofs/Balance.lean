import CodeGraft.Callable.Delimiter
import Mathlib.Data.List.Infix

/-!
# Balance of delimiters

A text balances in a pair of delimiters when no part from its start on closes more of them than it has
opened, and when in all it closes as many as it opens. Other text can take the place of a part without
loss exactly if that part has opened as many as it has closed.
-/

namespace CodeGraft

namespace Delimiter

variable {d : Delimiter} {text front old new back : Text}

/-- How many more delimiters a text opens than it closes. -/
def surplus (d : Delimiter) (text : Text) : Int := (text.count d.opener : Int) - text.count d.closer

@[simp] theorem surplus_nil (d : Delimiter) : d.surplus [] = 0 := by simp [surplus]

@[simp] theorem surplus_append (d : Delimiter) (front back : Text) :
    d.surplus (front ++ back) = d.surplus front + d.surplus back := by
  simp only [surplus, List.count_append]
  omega

theorem surplus_cons (d : Delimiter) (c : Char) (text : Text) :
    d.surplus (c :: text) = d.surplus [c] + d.surplus text :=
  surplus_append d [c] text

/-- What holds none of the two delimiters leaves nothing open. -/
theorem surplus_of_not_mem (hopener : d.opener ∉ text) (hcloser : d.closer ∉ text) :
    d.surplus text = 0 := by
  rw [surplus, List.count_eq_zero_of_not_mem hopener, List.count_eq_zero_of_not_mem hcloser]
  rfl

/-- No part of a text from its start on closes more delimiters than it opens, and all of it closes as
many. -/
structure Balances (d : Delimiter) (text : Text) : Prop where
  never_below : ∀ front, front <+: text → 0 ≤ d.surplus front
  settled : d.surplus text = 0

theorem balances_iff : d.Balances text ↔
    (∀ front ∈ text.inits, 0 ≤ d.surplus front) ∧ d.surplus text = 0 := by
  simp only [List.mem_inits]
  exact ⟨fun h => ⟨h.never_below, h.settled⟩, fun h => ⟨h.1, h.2⟩⟩

instance (d : Delimiter) (text : Text) : Decidable (d.Balances text) :=
  decidable_of_iff _ balances_iff.symm

/-- From the start on, a part of two texts ends in the first one or takes some of the second along. -/
theorem exists_of_prefix_append {part : Text} (h : part <+: front ++ back) :
    part <+: front ∨ ∃ more, part = front ++ more ∧ more <+: back := by
  obtain ⟨rest, hrest⟩ := h
  rcases List.append_eq_append_iff.mp hrest with ⟨missing, hfront, -⟩ | ⟨more, hpart, hback⟩
  · exact Or.inl ⟨missing, hfront.symm⟩
  · exact Or.inr ⟨more, hpart, rest, hback.symm⟩

/-- Balanced text can take the place of a part that has opened as many delimiters as it has closed,
and of no other part. -/
theorem Balances.replace_iff (h : d.Balances (front ++ (old ++ back))) (hnew : d.Balances new) :
    d.Balances (front ++ (new ++ back)) ↔ d.surplus old = 0 := by
  have htotal := h.settled
  rw [surplus_append, surplus_append] at htotal
  constructor
  · intro hafter
    have hsettled := hafter.settled
    rw [surplus_append, surplus_append, hnew.settled] at hsettled
    omega
  · intro hold
    refine ⟨fun part hpart => ?_, ?_⟩
    · rcases exists_of_prefix_append hpart with hpart | ⟨more, rfl, hmore⟩
      · exact h.never_below part (hpart.trans (List.prefix_append ..))
      · have hfront := h.never_below front (List.prefix_append ..)
        rw [surplus_append]
        rcases exists_of_prefix_append hmore with hmore | ⟨rest, rfl, hrest⟩
        · have := hnew.never_below more hmore
          omega
        · -- in front of the part that stays, the old text has left as much open as the new one
          have hbefore := h.never_below (front ++ (old ++ rest))
            ((List.prefix_append_right_inj _).mpr ((List.prefix_append_right_inj _).mpr hrest))
          rw [surplus_append, surplus_append] at hbefore
          rw [surplus_append, hnew.settled]
          omega
    · rw [surplus_append, surplus_append, hnew.settled]
      omega

end Delimiter

end CodeGraft
