import Mathlib.Tactic.IntervalCases
import RecoverOs.Logic.Amd64

namespace RecoverOs.Kernel

open Amd64 Bytes

def selectorKCode : BitVec 16 := 8

def idtDescCnt : Nat := 0x30

structure IdtDes where
  offLow : BitVec 16
  sct : BitVec 16
  ist : BitVec 8
  att : BitVec 8
  offMid : BitVec 16
  offHigh : BitVec 32
  rsv : BitVec 32
  deriving DecidableEq, Repr

def idtInit (entry : Nat → Word) (i : Nat) : IdtDes where
  offHigh := ((0xffffffff00000000#64 &&& entry i) >>> 32).setWidth 32
  offMid := ((0xffff0000#64 &&& entry i) >>> 16).setWidth 16
  offLow := (0xffff#64 &&& entry i).setWidth 16
  ist := 1
  sct := selectorKCode
  att := 0x8e
  rsv := 0

def idtTable (entry : Nat → Word) (i : Nat) : IdtDes :=
  if i = 0x20 then { idtInit entry i with ist := 2 } else idtInit entry i

def IdtDes.store (d : IdtDes) : Buffer := fun k =>
  if k < 2 then byteOf d.offLow.toNat k
  else if k < 4 then byteOf d.sct.toNat (k - 2)
  else if k < 5 then byteOf d.ist.toNat (k - 4)
  else if k < 6 then byteOf d.att.toNat (k - 5)
  else if k < 8 then byteOf d.offMid.toNat (k - 6)
  else if k < 12 then byteOf d.offHigh.toNat (k - 8)
  else byteOf d.rsv.toNat (k - 12)

def idtBytes (entry : Nat → Word) : Buffer := fun k => (idtTable entry (k / 16)).store (k % 16)

def idtPtr (table : Word) : Buffer := fun k =>
  if k < 8 then byteOf (BitVec.ofNat 64 (16 * idtDescCnt - 1) ||| table <<< 16).toNat k
  else byteOf (table >>> 48).toNat (k - 8)

structure Gate where
  offset : Word
  selector : BitVec 16
  ist : Nat
  kind : Nat
  dpl : Nat
  present : Bool
  deriving DecidableEq, Repr

def Gate.load (buf : Buffer) (off : Nat) : Gate where
  offset := BitVec.ofNat 64 (wordAt 2 buf off + wordAt 2 buf (off + 6) * 2 ^ 16 + wordAt 4 buf (off + 8) * 2 ^ 32)
  selector := BitVec.ofNat 16 (wordAt 2 buf (off + 2))
  ist := (buf (off + 4)).toNat % 8
  kind := (buf (off + 5)).toNat % 16
  dpl := (buf (off + 5)).toNat / 32 % 4
  present := decide (128 ≤ (buf (off + 5)).toNat)

structure TssDes where
  lenLow : BitVec 16
  base0 : BitVec 16
  base1 : BitVec 8
  addr : BitVec 8
  lenHigh : BitVec 8
  base2 : BitVec 8
  base3 : BitVec 32
  rsv : BitVec 32
  deriving DecidableEq, Repr

def sizeofTss : Word := 104#64

def tssInit (old : TssDes) (tssBase : Word) : TssDes :=
  { old with
    base0 := (tssBase &&& 0xffff#64).setWidth 16
    base1 := ((tssBase &&& 0xff0000#64) >>> 16).setWidth 8
    base2 := ((tssBase &&& 0xff000000#64) >>> 24).setWidth 8
    base3 := ((tssBase &&& 0xffffffff00000000#64) >>> 32).setWidth 32
    lenLow := (sizeofTss &&& 0xffff#64).setWidth 16
    lenHigh := (sizeofTss &&& 0xf0000#64).setWidth 8
    addr := 0x89 }

def TssDes.store (d : TssDes) : Buffer := fun k =>
  if k < 2 then byteOf d.lenLow.toNat k
  else if k < 4 then byteOf d.base0.toNat (k - 2)
  else if k < 5 then byteOf d.base1.toNat (k - 4)
  else if k < 6 then byteOf d.addr.toNat (k - 5)
  else if k < 7 then byteOf d.lenHigh.toNat (k - 6)
  else if k < 8 then byteOf d.base2.toNat (k - 7)
  else if k < 12 then byteOf d.base3.toNat (k - 8)
  else byteOf d.rsv.toNat (k - 12)

def segmentBase (buf : Buffer) : Word :=
  BitVec.ofNat 64 (wordAt 2 buf 2 + (buf 4).toNat * 2 ^ 16 + (buf 7).toNat * 2 ^ 24 + wordAt 4 buf 8 * 2 ^ 32)

def segmentLimit (buf : Buffer) : Nat := wordAt 2 buf 0 + (buf 6).toNat % 16 * 2 ^ 16

theorem wordAt_field {buf : Buffer} {low width n : Nat} (stored : ∀ k, low ≤ k → k < low + width → buf k = byteOf n (k - low))
    (fits : n < 256 ^ width) : wordAt width buf low = n := by
  apply wordAt_byteOf _ fits
  intro i less
  rw [stored (low + i) (Nat.le_add_right low i) (by omega), Nat.add_sub_cancel_left]

theorem part_toNat {mask a : Word} {shift width : Nat} (ones : mask.toNat >>> shift = 2 ^ width - 1) :
    (((mask &&& a) >>> shift).setWidth width).toNat = a.toNat / 2 ^ shift % 2 ^ width := by
  rw [BitVec.toNat_setWidth, BitVec.toNat_ushiftRight, BitVec.toNat_and, Nat.shiftRight_and_distrib, ones, Nat.and_comm,
    Nat.and_two_pow_sub_one_eq_mod, Nat.mod_mod, Nat.shiftRight_eq_div_pow]

theorem part_toNat_right {mask a : Word} {shift width : Nat} (ones : mask.toNat >>> shift = 2 ^ width - 1) :
    (((a &&& mask) >>> shift).setWidth width).toNat = a.toNat / 2 ^ shift % 2 ^ width := by
  rw [BitVec.and_comm, part_toNat ones]

theorem IdtDes.fields (d : IdtDes) : wordAt 2 d.store 0 = d.offLow.toNat ∧ wordAt 2 d.store 2 = d.sct.toNat ∧
    (d.store 4).toNat = d.ist.toNat ∧ (d.store 5).toNat = d.att.toNat ∧ wordAt 2 d.store 6 = d.offMid.toNat ∧
    wordAt 4 d.store 8 = d.offHigh.toNat := by
  have byte : ∀ x : BitVec 8, (byteOf x.toNat 0).toNat = x.toNat := by
    intro x
    rw [byteOf, Nat.pow_zero, Nat.div_one, UInt8.toNat_ofNat']
    exact Nat.mod_eq_of_lt x.isLt
  refine ⟨wordAt_field ?_ d.offLow.isLt, wordAt_field ?_ d.sct.isLt, byte d.ist, byte d.att,
    wordAt_field ?_ d.offMid.isLt, wordAt_field ?_ d.offHigh.isLt⟩
  all_goals
    intro k low high
    unfold IdtDes.store
    repeat rw [if_neg (by omega)]
    exact if_pos (by omega)

theorem byteOf_congr {m n i j : Nat} (same : m / 256 ^ i % 256 = n / 256 ^ j % 256) : byteOf m i = byteOf n j := by
  apply UInt8.toNat_inj.mp
  rw [byteOf, byteOf, UInt8.toNat_ofNat', UInt8.toNat_ofNat']
  exact same

theorem idtPtr_load (table : Word) : wordAt 2 (idtPtr table) 0 = 16 * idtDescCnt - 1 ∧
    wordAt 8 (idtPtr table) 2 = table.toNat := by
  have bound := table.isLt
  have word : (BitVec.ofNat 64 (16 * idtDescCnt - 1) ||| table <<< 16).toNat = 767 + table.toNat % 2 ^ 48 * 2 ^ 16 := by
    have shifted : table.toNat <<< 16 % 2 ^ 64 = (table.toNat % 2 ^ 48) <<< 16 := by
      rw [Nat.shiftLeft_eq, Nat.shiftLeft_eq]
      omega
    have limit : (BitVec.ofNat 64 (16 * idtDescCnt - 1)).toNat = 767 := rfl
    rw [BitVec.toNat_or, BitVec.toNat_shiftLeft, shifted, limit, Nat.or_comm,
      ← Nat.shiftLeft_add_eq_or_of_lt (by decide : 767 < 2 ^ 16), Nat.shiftLeft_eq, Nat.add_comm]
  constructor
  · have low : ∀ i < 2, idtPtr table (0 + i) = byteOf 767 i := by
      intro i less
      rw [Nat.zero_add, idtPtr, if_pos (by omega), word]
      apply byteOf_congr
      interval_cases i <;> omega
    exact wordAt_byteOf low (by decide)
  · have base : ∀ i < 8, idtPtr table (2 + i) = byteOf table.toNat i := by
      intro i less
      rw [idtPtr]
      split
      · rw [word]
        apply byteOf_congr
        interval_cases i <;> omega
      · rw [BitVec.toNat_ushiftRight, Nat.shiftRight_eq_div_pow]
        apply byteOf_congr
        interval_cases i <;> omega
    exact wordAt_byteOf base bound

theorem TssDes.fields (d : TssDes) : wordAt 2 d.store 0 = d.lenLow.toNat ∧ wordAt 2 d.store 2 = d.base0.toNat ∧
    (d.store 4).toNat = d.base1.toNat ∧ (d.store 6).toNat = d.lenHigh.toNat ∧ (d.store 7).toNat = d.base2.toNat ∧
    wordAt 4 d.store 8 = d.base3.toNat := by
  have byte : ∀ x : BitVec 8, (byteOf x.toNat 0).toNat = x.toNat := by
    intro x
    rw [byteOf, Nat.pow_zero, Nat.div_one, UInt8.toNat_ofNat']
    exact Nat.mod_eq_of_lt x.isLt
  refine ⟨wordAt_field ?_ d.lenLow.isLt, wordAt_field ?_ d.base0.isLt, byte d.base1, byte d.lenHigh, byte d.base2,
    wordAt_field ?_ d.base3.isLt⟩
  all_goals
    intro k low high
    unfold TssDes.store
    repeat rw [if_neg (by omega)]
    exact if_pos (by omega)

theorem tssInit_segment (old : TssDes) (tssBase : Word) :
    segmentBase (tssInit old tssBase).store = tssBase ∧ segmentLimit (tssInit old tssBase).store = 104 := by
  obtain ⟨lenLow, base0, base1, lenHigh, base2, base3⟩ := (tssInit old tssBase).fields
  have bound := tssBase.isLt
  have first : (tssInit old tssBase).base0.toNat = tssBase.toNat % 2 ^ 16 := by
    have whole := @part_toNat_right 0xffff#64 tssBase 0 16 rfl
    rwa [Nat.pow_zero, Nat.div_one, BitVec.ushiftRight_zero] at whole
  have second : (tssInit old tssBase).base1.toNat = tssBase.toNat / 2 ^ 16 % 2 ^ 8 := part_toNat_right rfl
  have third : (tssInit old tssBase).base2.toNat = tssBase.toNat / 2 ^ 24 % 2 ^ 8 := part_toNat_right rfl
  have fourth : (tssInit old tssBase).base3.toNat = tssBase.toNat / 2 ^ 32 % 2 ^ 32 := part_toNat_right rfl
  have whole : tssBase.toNat % 2 ^ 16 + tssBase.toNat / 2 ^ 16 % 2 ^ 8 * 2 ^ 16 +
      tssBase.toNat / 2 ^ 24 % 2 ^ 8 * 2 ^ 24 + tssBase.toNat / 2 ^ 32 % 2 ^ 32 * 2 ^ 32 = tssBase.toNat := by omega
  constructor
  · rw [segmentBase, base0, base1, base2, base3, first, second, third, fourth, whole, BitVec.ofNat_toNat,
      BitVec.setWidth_eq]
  · have low : (tssInit old tssBase).lenLow.toNat = 104 := rfl
    have high : (tssInit old tssBase).lenHigh.toNat = 0 := rfl
    rw [segmentLimit, lenLow, lenHigh, low, high, Nat.zero_mod, Nat.zero_mul]

end RecoverOs.Kernel
