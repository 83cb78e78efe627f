import Mathlib.Data.List.Basic

namespace Ring

universe u

variable {α : Type u} {size tail cnt : Nat}

def contents (buf : Nat → α) (size tail cnt : Nat) : List α :=
  (List.range cnt).map fun k => buf ((tail + k) % size)

@[simp] theorem contents_length (buf : Nat → α) (size tail cnt : Nat) : (contents buf size tail cnt).length = cnt := by
  rw [contents, List.length_map, List.length_range]

theorem position_ne {i j : Nat} (less : i < j) (turn : j < size) : (tail + i) % size ≠ (tail + j) % size := by
  intro same
  have whole := Nat.sub_mod_eq_zero_of_mod_eq same.symm
  have difference : tail + j - (tail + i) = j - i := by omega
  rw [difference, Nat.mod_eq_of_lt (by omega)] at whole
  omega

theorem contents_push (buf : Nat → α) (value : α) (room : cnt < size) :
    contents (Function.update buf ((tail + cnt) % size) value) size tail (cnt + 1) =
      contents buf size tail cnt ++ [value] := by
  rw [contents, contents, List.range_succ, List.map_append, List.map_singleton, Function.update_self]
  congr 1
  apply List.map_congr_left
  intro k member
  apply Function.update_of_ne
  exact position_ne (List.mem_range.mp member) room

theorem contents_pop (buf : Nat → α) (size tail cnt : Nat) :
    contents buf size tail (cnt + 1) = buf (tail % size) :: contents buf size ((tail + 1) % size) cnt := by
  rw [contents, List.range_succ_eq_map, List.map_cons, Nat.add_zero, List.map_map]
  congr 1
  apply List.map_congr_left
  intro k _
  show buf ((tail + (k + 1)) % size) = buf (((tail + 1) % size + k) % size)
  rw [Nat.mod_add_mod]
  congr 2
  omega

end Ring
