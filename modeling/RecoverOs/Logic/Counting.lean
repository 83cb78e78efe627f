import Mathlib.Algebra.BigOperators.Group.Finset.Basic
import Mathlib.Algebra.Order.BigOperators.Group.Finset
import Mathlib.Algebra.BigOperators.Intervals

namespace Counting

open Finset

variable {α : Type*} [DecidableEq α]

theorem sum_update (owners : Finset α) (f : α → Nat) {a : α} (member : a ∈ owners) (v : Nat) :
    (∑ b ∈ owners, Function.update f a v b) + f a = (∑ b ∈ owners, f b) + v := by
  rw [Finset.sum_update_of_mem member, ← Finset.add_sum_erase owners f member, Finset.sdiff_singleton_eq_erase]
  omega

theorem sum_of_change (owners : Finset α) (f g : α → Nat) {a : α} (member : a ∈ owners)
    (others : ∀ b ∈ owners, b ≠ a → g b = f b) :
    (∑ b ∈ owners, g b) + f a = (∑ b ∈ owners, f b) + g a := by
  have changed : ∀ b ∈ owners, g b = Function.update f a (g a) b := by
    intro b inside
    by_cases same : b = a
    · subst same; simp
    · simp [same, others b inside same]
  rw [Finset.sum_congr rfl changed]
  exact sum_update owners f member (g a)

end Counting
