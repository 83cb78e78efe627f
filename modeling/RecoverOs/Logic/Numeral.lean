import Mathlib.Data.Nat.Digits.Lemmas

namespace Numeral

/-- The digits of `n` in base `b`; 0 has the one digit 0. -/
def digits (b n : Nat) : List Nat := if n = 0 then [0] else (Nat.digits b n).reverse

def value (b : Nat) (ds : List Nat) : Nat := ds.foldl (fun n d => b * n + d) 0

structure Canonical (b n : Nat) (ds : List Nat) : Prop where
  some_left : ds ≠ []
  bounded : ∀ d ∈ ds, d < b
  leading : ds.head? = some 0 → ds = [0]
  value : value b ds = n

variable {b n : Nat} {ds : List Nat}

theorem value_append (b d : Nat) (ds : List Nat) : value b (ds ++ [d]) = b * value b ds + d := by
  rw [value, List.foldl_append]
  rfl

theorem value_eq_ofDigits (b : Nat) (ds : List Nat) : value b ds = Nat.ofDigits b ds.reverse := by
  induction ds using List.reverseRecOn with
  | nil => rfl
  | append_singleton ds d ih =>
    rw [value_append, ih, List.reverse_append, List.reverse_singleton, List.singleton_append, Nat.ofDigits_cons,
      Nat.add_comm]

theorem digits_small (small : n < b) : digits b n = [n] := by
  unfold digits
  split
  · rename_i zero
    rw [zero]
  · rename_i nonzero
    rw [Nat.digits_of_lt b n nonzero small, List.reverse_singleton]

theorem digits_step (two : 1 < b) (large : b ≤ n) : digits b n = digits b (n / b) ++ [n % b] := by
  have positive : 0 < n / b := Nat.div_pos large (by omega)
  unfold digits
  rw [if_neg (by omega), if_neg (by omega), Nat.digits_def' two (by omega), List.reverse_cons]

theorem digits_bounded (two : 1 < b) (n : Nat) : ∀ d ∈ digits b n, d < b := by
  intro d member
  unfold digits at member
  split at member
  · rw [List.mem_singleton] at member
    omega
  · exact Nat.digits_lt_base two (List.mem_reverse.mp member)

theorem canonical_digits (two : 1 < b) (n : Nat) : Canonical b n (digits b n) := by
  constructor
  · unfold digits
    split
    · exact List.cons_ne_nil 0 []
    · rename_i nonzero
      rw [Ne, List.reverse_eq_nil_iff]
      exact Nat.digits_ne_nil_iff_ne_zero.mpr nonzero
  · exact digits_bounded two n
  · intro zero_first
    unfold digits at zero_first ⊢
    split
    · rfl
    · rename_i nonzero
      rw [if_neg nonzero, List.head?_reverse] at zero_first
      have last := Nat.getLast_digit_ne_zero b nonzero
      rw [List.getLast?_eq_some_getLast (Nat.digits_ne_nil_iff_ne_zero.mpr nonzero)] at zero_first
      exact absurd (Option.some.inj zero_first) last
  · rw [value_eq_ofDigits]
    unfold digits
    split
    · rename_i zero
      rw [zero]
      rfl
    · rw [List.reverse_reverse, Nat.ofDigits_digits]

theorem digits_length_le (two : 1 < b) {k : Nat} (positive : 0 < k) : (digits b n).length ≤ k ↔ n < b ^ k := by
  unfold digits
  split
  · rename_i zero
    rw [zero, List.length_singleton]
    exact ⟨fun _ => Nat.pow_pos (by omega), fun _ => positive⟩
  · rw [List.length_reverse]
    exact Nat.digits_length_le_iff two n

theorem digits_places (two : 1 < b) {k : Nat} (below : n < b ^ (k + 1)) (top : n / b ^ k ≠ 0) :
    digits b n = ((List.range (k + 1)).map fun i => n / b ^ i % b).reverse := by
  induction k generalizing n with
  | zero =>
    rw [Nat.zero_add, Nat.pow_one] at below
    rw [digits_small below]
    simp [Nat.mod_eq_of_lt below]
  | succ k ih =>
    have shifted : ∀ i, n / b ^ (i + 1) = n / b / b ^ i := by
      intro i
      rw [Nat.div_div_eq_div_mul, Nat.pow_succ']
    have large : b ≤ n := by
      by_contra small
      apply top
      rw [shifted, Nat.div_eq_of_lt (Nat.lt_of_not_le small), Nat.zero_div]
    have later : n / b < b ^ (k + 1) := by
      rw [Nat.div_lt_iff_lt_mul (by omega), ← Nat.pow_succ]
      exact below
    rw [shifted] at top
    have places : (List.range (k + 1 + 1)).map (fun i => n / b ^ i % b) =
        n % b :: (List.range (k + 1)).map fun i => n / b / b ^ i % b := by
      rw [List.range_succ_eq_map, List.map_cons, List.map_map, Nat.pow_zero, Nat.div_one]
      simp only [Function.comp_def, Nat.succ_eq_add_one, shifted]
    rw [digits_step two large, ih later top, places, List.reverse_cons]

end Numeral
