import Mathlib.Logic.Function.Iterate
import Mathlib.Logic.Relation

universe u

namespace Rooted

open Relation

variable {α : Type u} {edge edge' : α → α → Prop} {root parent leaf node : α}

theorem reached_mono (more : ∀ a b, edge a b → edge' a b) (reached : ReflTransGen edge root node) :
    ReflTransGen edge' root node :=
  ReflTransGen.mono more root node reached

theorem reached_insert (edges : ∀ a b, edge' a b ↔ edge a b ∨ a = parent ∧ b = leaf)
    (reached : ReflTransGen edge root parent) (isLeaf : ∀ b, ¬ edge leaf b) :
    ReflTransGen edge' root node ↔ ReflTransGen edge root node ∨ node = leaf := by
  constructor
  · intro path
    induction path with
    | refl => exact .inl .refl
    | @tail a b _ step ih =>
      rcases (edges a b).mp step with old | ⟨_, here⟩
      · rcases ih with before | same
        · exact .inl (before.tail old)
        · exact absurd (same ▸ old) (isLeaf b)
      · exact .inr here
  · have old : ∀ a b, edge a b → edge' a b := fun a b step => (edges a b).mpr (.inl step)
    intro either
    rcases either with before | rfl
    · exact reached_mono old before
    · exact (reached_mono old reached).tail ((edges parent node).mpr (.inr ⟨rfl, rfl⟩))

theorem reached_remove (edges : ∀ a b, edge' a b ↔ edge a b ∧ b ≠ leaf) (isLeaf : ∀ b, ¬ edge leaf b)
    (apart : root ≠ leaf) : ReflTransGen edge' root node ↔ ReflTransGen edge root node ∧ node ≠ leaf := by
  constructor
  · intro path
    induction path with
    | refl => exact ⟨.refl, apart⟩
    | @tail a b _ step ih =>
      obtain ⟨old, other⟩ := (edges a b).mp step
      exact ⟨ih.1.tail old, other⟩
  · rintro ⟨path, other⟩
    induction path with
    | refl => exact .refl
    | @tail a b _ step ih =>
      have inner : a ≠ leaf := fun same => isLeaf b (same ▸ step)
      exact (ih inner).tail ((edges a b).mpr ⟨step, other⟩)

def Nearest (parentOf : α → α) (good : α → Prop) (start found : α) : Prop :=
  ∃ n, parentOf^[n] start = found ∧ good found ∧ ∀ k < n, ¬ good (parentOf^[k] start)

section

variable {parentOf : α → α} {good : α → Prop} {start found : α}

theorem Nearest.isGood (nearest : Nearest parentOf good start found) : good found := by
  obtain ⟨_, _, isGood, _⟩ := nearest
  exact isGood

theorem nearest_self (isGood : good start) : Nearest parentOf good start start :=
  ⟨0, rfl, isGood, fun k less => absurd less (Nat.not_lt_zero k)⟩

theorem Nearest.below (nearest : Nearest parentOf good (parentOf start) found) (skipped : ¬ good start) :
    Nearest parentOf good start found := by
  obtain ⟨n, reached, isGood, before⟩ := nearest
  refine ⟨n + 1, by rw [Function.iterate_succ_apply, reached], isGood, ?_⟩
  intro k less
  cases k with
  | zero => exact skipped
  | succ k =>
    rw [Function.iterate_succ_apply]
    exact before k (Nat.lt_of_succ_lt_succ less)

end

end Rooted
