import Mathlib.Algebra.Group.Int.Defs
import Mathlib.Algebra.Group.Nat.Defs
import Mathlib.Logic.Function.Basic

namespace Bytes

abbrev Buffer := Nat → UInt8

def copy (dst : Buffer) (pos : Nat) (src : Buffer) (count : Nat) : Buffer :=
  fun i => if pos ≤ i ∧ i < pos + count then src (i - pos) else dst i

def fill (dst : Buffer) (value : UInt8) (count : Nat) : Buffer :=
  copy dst 0 (fun _ => value) count

def wordAt : Nat → Buffer → Nat → Nat
  | 0, _, _ => 0
  | width + 1, buf, off => (buf off).toNat + 256 * wordAt width buf (off + 1)

def byteOf (n i : Nat) : UInt8 := UInt8.ofNat (n / 256 ^ i)

theorem copy_inside {dst src : Buffer} {pos count i : Nat} (low : pos ≤ i) (high : i < pos + count) :
    copy dst pos src count i = src (i - pos) := by
  rw [copy, if_pos ⟨low, high⟩]

theorem copy_outside {dst src : Buffer} {pos count i : Nat} (outside : i < pos ∨ pos + count ≤ i) :
    copy dst pos src count i = dst i := by
  rw [copy, if_neg (by omega)]

theorem wordAt_congr {width : Nat} {left right : Buffer} {off other : Nat}
    (same : ∀ i < width, left (off + i) = right (other + i)) : wordAt width left off = wordAt width right other := by
  induction width generalizing off other with
  | zero => rfl
  | succ width ih =>
    have first := same 0 (Nat.succ_pos width)
    have rest : wordAt width left (off + 1) = wordAt width right (other + 1) := by
      apply ih
      intro i bound
      have next := same (i + 1) (by omega)
      rw [Nat.add_assoc, Nat.add_comm 1 i, next, Nat.add_assoc, Nat.add_comm 1 i]
    rw [wordAt, wordAt, rest]
    rw [Nat.add_zero, Nat.add_zero] at first
    rw [first]

theorem wordAt_lt (width : Nat) (buf : Buffer) (off : Nat) : wordAt width buf off < 256 ^ width := by
  induction width generalizing off with
  | zero => simp [wordAt]
  | succ width ih =>
    have rest := ih (off + 1)
    have byte := (buf off).toNat_lt
    rw [wordAt, Nat.pow_succ]
    omega

theorem wordAt_zero {width : Nat} {buf : Buffer} {off : Nat} (zero : ∀ i < width, buf (off + i) = 0) :
    wordAt width buf off = 0 := by
  induction width generalizing off with
  | zero => rfl
  | succ width ih =>
    have first := zero 0 (Nat.succ_pos width)
    have rest : wordAt width buf (off + 1) = 0 := by
      apply ih
      intro i bound
      rw [Nat.add_assoc, Nat.add_comm 1 i]
      exact zero (i + 1) (by omega)
    rw [Nat.add_zero] at first
    rw [wordAt, rest, first]
    rfl

theorem wordAt_stored {width : Nat} {buf : Buffer} {off n : Nat} (stored : ∀ i < width, buf (off + i) = byteOf n i) :
    wordAt width buf off = n % 256 ^ width := by
  induction width generalizing off n with
  | zero => rw [wordAt, Nat.pow_zero, Nat.mod_one]
  | succ width ih =>
    have first := stored 0 (Nat.succ_pos width)
    have rest : wordAt width buf (off + 1) = n / 256 % 256 ^ width := by
      apply ih
      intro i bound
      rw [Nat.add_assoc, Nat.add_comm 1 i, stored (i + 1) (by omega)]
      simp only [byteOf]
      rw [Nat.div_div_eq_div_mul, Nat.pow_succ, Nat.mul_comm]
    rw [Nat.add_zero] at first
    rw [wordAt, rest, first, Nat.pow_succ', Nat.mod_mul]
    simp only [byteOf, Nat.pow_zero, Nat.div_one, UInt8.toNat_ofNat']

theorem wordAt_byteOf {width : Nat} {buf : Buffer} {off n : Nat} (stored : ∀ i < width, buf (off + i) = byteOf n i)
    (fits : n < 256 ^ width) : wordAt width buf off = n := by
  rw [wordAt_stored stored, Nat.mod_eq_of_lt fits]

theorem byteOf_wordAt {width : Nat} {buf : Buffer} {off i : Nat} (bound : i < width) :
    byteOf (wordAt width buf off) i = buf (off + i) := by
  induction width generalizing off i with
  | zero => omega
  | succ width ih =>
    have byte := (buf off).toNat_lt
    cases i with
    | zero =>
      simp only [byteOf, wordAt, Nat.pow_zero, Nat.div_one, Nat.add_zero]
      apply UInt8.toNat_inj.mp
      rw [UInt8.toNat_ofNat']
      omega
    | succ i =>
      have shift : wordAt (width + 1) buf off / 256 = wordAt width buf (off + 1) := by
        rw [wordAt]
        omega
      rw [Nat.add_comm i 1, ← Nat.add_assoc, ← ih (Nat.lt_of_succ_lt_succ bound), byteOf, byteOf, Nat.add_comm 1 i,
        Nat.pow_succ', ← Nat.div_div_eq_div_mul, shift]

end Bytes
