import Mathlib.Logic.Function.Basic

universe u v

structure Ledger (ι : Type u) (ρ : Type v) where
  count : ι → Nat
  entry : ι → Nat → ρ

namespace Ledger

variable {ι : Type u} {ρ : Type v} {ledger other : Ledger ι ρ} {member : ι → Prop} {good : ρ → Prop}

def Holds (ledger : Ledger ι ρ) (i : ι) (k : Nat) (r : ρ) : Prop :=
  k < ledger.count i ∧ ledger.entry i k = r

structure Sound (ledger : Ledger ι ρ) (member : ι → Prop) (good : ρ → Prop) : Prop where
  apart : ∀ i j k l r, member i → member j → ledger.Holds i k r → ledger.Holds j l r → i = j ∧ k = l
  good : ∀ i k r, member i → ledger.Holds i k r → good r

def Shortens (ledger other : Ledger ι ρ) (member : ι → Prop) : Prop :=
  ∀ i, member i → other.count i ≤ ledger.count i ∧ ∀ k < other.count i, other.entry i k = ledger.entry i k

theorem Shortens.holds (shorter : Shortens ledger other member) {i : ι} {k : Nat} {r : ρ} (inside : member i)
    (holds : other.Holds i k r) : ledger.Holds i k r := by
  obtain ⟨fewer, same⟩ := shorter i inside
  exact ⟨Nat.lt_of_lt_of_le holds.1 fewer, (same k holds.1).symm.trans holds.2⟩

theorem Sound.shorten {better : ρ → Prop} (sound : ledger.Sound member good) (shorter : Shortens ledger other member)
    (kept : ∀ i k r, member i → other.Holds i k r → good r → better r) : other.Sound member better where
  apart := fun i j k l r first second left right =>
    sound.apart i j k l r first second (shorter.holds first left) (shorter.holds second right)
  good := fun i k r inside holds => kept i k r inside holds (sound.good i k r inside (shorter.holds inside holds))

theorem Sound.enroll {wider : ι → Prop} (sound : ledger.Sound member good)
    (empty : ∀ i, wider i → member i ∨ ledger.count i = 0) : ledger.Sound wider good := by
  have held : ∀ i k r, wider i → ledger.Holds i k r → member i := by
    intro i k r inside holds
    rcases empty i inside with inside | zero
    · exact inside
    · exact absurd holds.1 (by omega)
  constructor
  case apart =>
    intro i j k l r first second left right
    exact sound.apart i j k l r (held i k r first left) (held j l r second right) left right
  case good =>
    intro i k r inside holds
    exact sound.good i k r (held i k r inside holds) holds

theorem Sound.extend {i : ι} {r : ρ} (sound : ledger.Sound member good) (more : other.count i = ledger.count i + 1)
    (others : ∀ j, member j → j ≠ i → other.count j = ledger.count j)
    (old : ∀ j, member j → ∀ k < ledger.count j, other.entry j k = ledger.entry j k)
    (new : other.entry i (ledger.count i) = r) (free : ∀ j k, member j → ¬ ledger.Holds j k r) (fine : good r) :
    other.Sound member good := by
  have split : ∀ j k q, member j → other.Holds j k q →
      ledger.Holds j k q ∨ (j = i ∧ k = ledger.count i ∧ q = r) := by
    intro j k q inside holds
    obtain ⟨bound, value⟩ := holds
    by_cases here : j = i
    · subst here
      rw [more] at bound
      rcases Nat.lt_succ_iff_lt_or_eq.mp bound with below | last
      · exact .inl ⟨below, (old j inside k below).symm.trans value⟩
      · rw [last, new] at value
        exact .inr ⟨rfl, last, value.symm⟩
    · rw [others j inside here] at bound
      exact .inl ⟨bound, (old j inside k bound).symm.trans value⟩
  constructor
  case apart =>
    intro j l k m q first second left right
    rcases split j k q first left with left | ⟨owner, place, value⟩
    · rcases split l m q second right with right | ⟨_, _, value⟩
      · exact sound.apart j l k m q first second left right
      · exact absurd (value ▸ left) (free j k first)
    · rcases split l m q second right with right | ⟨owner', place', _⟩
      · exact absurd (value ▸ right) (free l m second)
      · exact ⟨owner.trans owner'.symm, place.trans place'.symm⟩
  case good =>
    intro j k q inside holds
    rcases split j k q inside holds with holds | ⟨_, _, rfl⟩
    · exact sound.good j k q inside holds
    · exact fine

end Ledger
