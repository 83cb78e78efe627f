import Mathlib.Data.List.TakeWhile
import RecoverOs.Basic
import RecoverOs.Logic.Numeral

namespace RecoverOs.Lib

open Transition

def percent : UInt8 := 0x25
def minus : UInt8 := 0x2d

def itoaDigit (m : Nat) : UInt8 := if m < 10 then UInt8.ofNat (m + 0x30) else UInt8.ofNat (m + 0x41 - 10)

def itoa (base : Nat) (two : 1 < base) (value : Nat) (buf : List UInt8) : List UInt8 :=
  if value / base = 0 then buf ++ [itoaDigit (value % base)]
  else itoa base two (value / base) buf ++ [itoaDigit (value % base)]
termination_by value
decreasing_by
  apply Nat.div_lt_self
  · apply Nat.pos_of_ne_zero
    intro zero
    simp_all
  · exact two

/-- A slot of the arguments: a word, or a pointer to a string. -/
inductive Arg where
  | word (value : BitVec 64)
  | str (text : List UInt8)
  deriving DecidableEq

def nextWord : List Arg → Except Halt (BitVec 64 × List Arg)
  | .word value :: args => .ok (value, args)
  | _ => .error .refused

def nextStr : List Arg → Except Halt (List UInt8 × List Arg)
  | .str text :: args => .ok (text, args)
  | _ => .error .refused

def putLong (arg64 : BitVec 64) (str : List UInt8) : List UInt8 :=
  if arg64.slt 0 then itoa 10 (by decide) (0 - arg64).toNat (str ++ [minus]) else itoa 10 (by decide) arg64.toNat str

/-- The branch for `%d`: `arg_int` is extended to the 64 bits of `value`. -/
def putInt (argInt : BitVec 32) (str : List UInt8) : List UInt8 :=
  if argInt.slt 0 then itoa 10 (by decide) ((0 - argInt).signExtend 64).toNat (str ++ [minus])
  else itoa 10 (by decide) (argInt.signExtend 64).toNat str

/-- Where the loop of `vsprintf` reads the next character: at its head, behind `%` or behind `%l`. -/
inductive FormatPlace where
  | head
  | percent
  | long
  deriving DecidableEq

def atHead (idx : UInt8) (str : List UInt8) : FormatPlace × List UInt8 :=
  if idx ≠ percent then (.head, str ++ [idx]) else (.percent, str)

/-- The loop of `vsprintf` over the rest of the format, where `str` is the text so far. A character behind `%` or `%l` that
    names no conversion is the one the next turn begins with. -/
def formatLoop : List UInt8 → FormatPlace → List Arg → List UInt8 → Except Halt (List UInt8)
  | [], _, _, str => .ok str
  | idx :: format, .head, args, str => formatLoop format (atHead idx str).1 args (atHead idx str).2
  | idx :: format, .percent, args, str =>
    if idx = 0x6c then formatLoop format .long args str
    else if idx = 0x73 then do
      let (text, args) ← nextStr args
      formatLoop format .head args (str ++ text)
    else if idx = 0x63 then do
      let (value, args) ← nextWord args
      formatLoop format .head args (str ++ [UInt8.ofNat value.toNat])
    else if idx = 0x64 then do
      let (value, args) ← nextWord args
      formatLoop format .head args (putInt (value.setWidth 32) str)
    else if idx = 0x78 then do
      let (value, args) ← nextWord args
      formatLoop format .head args (itoa 16 (by decide) ((value.setWidth 32).signExtend 64).toNat str)
    else formatLoop format (atHead idx str).1 args (atHead idx str).2
  | idx :: format, .long, args, str =>
    if idx = 0x64 then do
      let (arg64, args) ← nextWord args
      formatLoop format .head args (putLong arg64 str)
    else if idx = 0x78 then do
      let (arg64, args) ← nextWord args
      formatLoop format .head args (itoa 16 (by decide) arg64.toNat str)
    else formatLoop format (atHead idx str).1 args (atHead idx str).2

def strlen (str : List UInt8) : Nat := (str.takeWhile (· != 0)).length

/-- The text in front of the final 0, and the returned length. The strings have no 0 inside. -/
def vsprintf (format : List UInt8) (args : List Arg) : Except Halt (List UInt8 × Nat) := do
  let str ← formatLoop format .head args []
  return (str, strlen (str ++ [0]))

def numeral (base n : Nat) : List UInt8 := (Numeral.digits base n).map itoaDigit

theorem itoa_eq {base : Nat} (two : 1 < base) (value : Nat) (buf : List UInt8) :
    itoa base two value buf = buf ++ numeral base value := by
  induction value using Nat.strongRecOn with
  | ind value ih =>
    rw [itoa]
    split
    · rename_i small
      have below : value < base := by
        rwa [Nat.div_eq_zero_iff_lt (by omega)] at small
      rw [Nat.mod_eq_of_lt below, numeral, Numeral.digits_small below]
      rfl
    · rename_i large
      have above : base ≤ value := by
        by_contra below
        exact large (Nat.div_eq_of_lt (Nat.lt_of_not_le below))
      rw [ih _ (Nat.div_lt_self (by omega) two), numeral, numeral, Numeral.digits_step two above, List.map_append,
        List.append_assoc]
      rfl

/-- A part of a format with the argument it takes. -/
inductive Item where
  | literal (ch : UInt8) (plain : ch ≠ percent ∧ ch ≠ 0)
  | d (arg : BitVec 64)
  | x (arg : BitVec 64)
  | ld (arg : BitVec 64)
  | lx (arg : BitVec 64)
  | s (text : List UInt8) (nonzero : 0 ∉ text)
  | c (arg : BitVec 64)

def Item.format : Item → List UInt8
  | .literal ch _ => [ch]
  | .d _ => [percent, 0x64]
  | .x _ => [percent, 0x78]
  | .ld _ => [percent, 0x6c, 0x64]
  | .lx _ => [percent, 0x6c, 0x78]
  | .s _ _ => [percent, 0x73]
  | .c _ => [percent, 0x63]

def Item.args : Item → List Arg
  | .literal _ _ => []
  | .d arg | .x arg | .ld arg | .lx arg | .c arg => [.word arg]
  | .s text _ => [.str text]

def signedNumeral (value : Int) : List UInt8 :=
  if value < 0 then minus :: numeral 10 value.natAbs else numeral 10 value.natAbs

/-- What a part stands for: numbers of 32 bits for `%d` and `%x`, of 64 bits for `%ld` and `%lx`. -/
def Item.shown : Item → List UInt8
  | .literal ch _ => [ch]
  | .d arg => signedNumeral (arg.setWidth 32).toInt
  | .x arg => numeral 16 (arg.setWidth 32).toNat
  | .ld arg => signedNumeral arg.toInt
  | .lx arg => numeral 16 arg.toNat
  | .s text _ => text
  | .c arg => [UInt8.ofNat arg.toNat]

def Item.printed : Item → List UInt8
  | .d arg => putInt (arg.setWidth 32) []
  | .x arg => numeral 16 ((arg.setWidth 32).signExtend 64).toNat
  | item => item.shown

theorem putInt_append (argInt : BitVec 32) (str : List UInt8) : putInt argInt str = str ++ putInt argInt [] := by
  unfold putInt
  split
  · rw [itoa_eq, itoa_eq, List.append_assoc, List.nil_append]
  · rw [itoa_eq, itoa_eq, List.nil_append]

theorem slt_zero {w : Nat} (value : BitVec w) : value.slt 0 = decide (value.toInt < 0) := by
  rw [BitVec.slt_eq_decide, BitVec.ofNat_eq_ofNat, BitVec.toInt_zero]

theorem toNat_zero_sub {w : Nat} (value : BitVec w) (negative : value.toInt < 0) :
    (0 - value).toNat = value.toInt.natAbs := by
  have bound := value.isLt
  have cond := BitVec.toInt_eq_toNat_cond value
  split at cond
  · omega
  · have positive : 0 < value.toNat := by omega
    rw [BitVec.toNat_sub, BitVec.ofNat_eq_ofNat, BitVec.toNat_ofNat, Nat.zero_mod, Nat.add_zero,
      Nat.mod_eq_of_lt (by omega), cond]
    omega

theorem toNat_natAbs {w : Nat} (value : BitVec w) (nonnegative : ¬ value.toInt < 0) :
    value.toNat = value.toInt.natAbs := by
  have bound := value.isLt
  have cond := BitVec.toInt_eq_toNat_cond value
  split at cond
  · omega
  · omega

theorem putLong_eq (arg64 : BitVec 64) (str : List UInt8) : putLong arg64 str = str ++ signedNumeral arg64.toInt := by
  rw [putLong, signedNumeral, slt_zero]
  by_cases negative : arg64.toInt < 0
  · rw [if_pos (decide_eq_true negative), if_pos negative, itoa_eq, toNat_zero_sub arg64 negative, List.append_assoc]
    rfl
  · rw [if_neg (by rw [decide_eq_true_eq]; exact negative), if_neg negative, itoa_eq, toNat_natAbs arg64 negative]

theorem formatLoop_item (item : Item) (format : List UInt8) (args : List Arg) (str : List UInt8) :
    formatLoop (item.format ++ format) .head (item.args ++ args) str =
      formatLoop format .head args (str ++ item.printed) := by
  have marked : ∀ (idx : UInt8) (rest : List UInt8) (args : List Arg), formatLoop (percent :: idx :: rest) .head args str =
      formatLoop (idx :: rest) .percent args str := fun _ _ _ => rfl
  cases item with
  | literal ch plain =>
    have copied : atHead ch str = (.head, str ++ [ch]) := if_pos plain.1
    show formatLoop (ch :: format) .head args str = _
    rw [formatLoop, copied]
    rfl
  | d arg =>
    show formatLoop (percent :: 0x64 :: format) .head (.word arg :: args) str = _
    rw [marked, Item.printed, ← putInt_append]
    rfl
  | x arg =>
    show formatLoop (percent :: 0x78 :: format) .head (.word arg :: args) str = _
    rw [marked, Item.printed, ← itoa_eq (by decide)]
    rfl
  | ld arg =>
    show formatLoop (percent :: 0x6c :: 0x64 :: format) .head (.word arg :: args) str = _
    have printed : (Item.ld arg).printed = signedNumeral arg.toInt := rfl
    rw [marked, printed, ← putLong_eq]
    rfl
  | lx arg =>
    show formatLoop (percent :: 0x6c :: 0x78 :: format) .head (.word arg :: args) str = _
    have printed : (Item.lx arg).printed = numeral 16 arg.toNat := rfl
    rw [marked, printed, ← itoa_eq (by decide)]
    rfl
  | s text nonzero => rfl
  | c arg => rfl

theorem formatLoop_items (items : List Item) (str : List UInt8) :
    formatLoop (items.flatMap Item.format) .head (items.flatMap Item.args) str =
      .ok (str ++ items.flatMap Item.printed) := by
  induction items generalizing str with
  | nil =>
    rw [List.flatMap_nil, List.flatMap_nil, List.flatMap_nil, List.append_nil]
    rfl
  | cons item items ih =>
    rw [List.flatMap_cons, List.flatMap_cons, List.flatMap_cons, formatLoop_item, ih, List.append_assoc]

/-- The extremes that the 32 bits of `arg_int` do not hold: the magnitude of the least `int`, and every number that `%x`
    has to show from `2^31` on. -/
def Item.Fits : Item → Prop
  | .d arg => (arg.setWidth 32).toInt ≠ -2 ^ 31
  | .x arg => 0 ≤ (arg.setWidth 32).toInt
  | _ => True

def Item.NotNul : Item → Prop
  | .c arg => UInt8.ofNat arg.toNat ≠ 0
  | _ => True

theorem toNat_extended (value : BitVec 32) :
    (value.signExtend 64).toNat = value.toNat + if value.toInt < 0 then 2 ^ 64 - 2 ^ 32 else 0 := by
  have bound := value.isLt
  have cond := BitVec.toInt_eq_toNat_cond value
  have sign : value.msb = true ↔ value.toInt < 0 := by
    rw [BitVec.msb_eq_decide, decide_eq_true_eq]
    split at cond <;> omega
  rw [BitVec.toNat_signExtend, BitVec.toNat_setWidth, Nat.mod_eq_of_lt (by omega)]
  congr 1
  exact if_congr sign rfl rfl

theorem putInt_eq (value : BitVec 32) : putInt value [] =
    if value.toInt = -2 ^ 31 then minus :: numeral 10 (2 ^ 64 - 2 ^ 31) else signedNumeral value.toInt := by
  have bound := value.isLt
  have cond := BitVec.toInt_eq_toNat_cond value
  rw [putInt, slt_zero]
  by_cases negative : value.toInt < 0
  · have magnitude := toNat_zero_sub value negative
    have flipped := BitVec.toInt_eq_toNat_cond (0 - value)
    rw [if_pos (decide_eq_true negative), itoa_eq, toNat_extended]
    by_cases least : value.toInt = -2 ^ 31
    · have still_negative : (0 - value).toInt < 0 := by
        split at flipped <;> omega
      have sum : (0 - value).toNat + (2 ^ 64 - 2 ^ 32) = 2 ^ 64 - 2 ^ 31 := by omega
      rw [if_pos least, if_pos still_negative, sum]
      rfl
    · have turned : ¬ (0 - value).toInt < 0 := by
        split at cond <;> split at flipped <;> omega
      rw [if_neg least, if_neg turned, Nat.add_zero, magnitude, signedNumeral, if_pos negative]
      rfl
  · rw [if_neg (by rw [decide_eq_true_eq]; exact negative), if_neg (by omega), itoa_eq, toNat_extended, if_neg negative,
      Nat.add_zero, toNat_natAbs value negative, signedNumeral, if_neg negative]
    rfl

theorem length_numeral (base n : Nat) : (numeral base n).length = (Numeral.digits base n).length := List.length_map ..

theorem printed_of_fits {item : Item} (fits : item.Fits) : item.printed = item.shown := by
  cases item with
  | d arg =>
    rw [Item.printed, putInt_eq, if_neg fits]
    rfl
  | x arg =>
    rw [Item.printed, toNat_extended, if_neg (Int.not_lt.mpr fits), Nat.add_zero]
    rfl
  | _ => rfl

theorem printed_longer {item : Item} (unfit : ¬ item.Fits) : item.shown.length < item.printed.length := by
  cases item with
  | d arg =>
    have least : (arg.setWidth 32).toInt = -2 ^ 31 := Classical.not_not.mp unfit
    have short : (Numeral.digits 10 (2 ^ 31)).length ≤ 10 := by
      rw [Numeral.digits_length_le (by decide) (by decide)]
      decide
    have long : ¬ (Numeral.digits 10 (2 ^ 64 - 2 ^ 31)).length ≤ 10 := by
      rw [Numeral.digits_length_le (by decide) (by decide)]
      decide
    have shown : (Item.d arg).shown = minus :: numeral 10 (2 ^ 31) := by
      rw [Item.shown, least]
      rfl
    rw [shown, Item.printed, putInt_eq, if_pos least, List.length_cons, List.length_cons, length_numeral, length_numeral]
    omega
  | x arg =>
    have negative : (arg.setWidth 32).toInt < 0 := Int.not_le.mp unfit
    have short : (Numeral.digits 16 (arg.setWidth 32).toNat).length ≤ 8 := by
      rw [Numeral.digits_length_le (by decide) (by decide)]
      exact (arg.setWidth 32).isLt
    have long : ¬ (Numeral.digits 16 ((arg.setWidth 32).toNat + (2 ^ 64 - 2 ^ 32))).length ≤ 8 := by
      rw [Numeral.digits_length_le (by decide) (by decide)]
      omega
    rw [Item.printed, Item.shown, toNat_extended, if_pos negative, length_numeral, length_numeral]
    omega
  | _ => exact absurd True.intro unfit

theorem shown_le_printed (item : Item) : item.shown.length ≤ item.printed.length := by
  by_cases fits : item.Fits
  · rw [printed_of_fits fits]
  · exact Nat.le_of_lt (printed_longer fits)

theorem flatMap_shown_le (items : List Item) :
    (items.flatMap Item.shown).length ≤ (items.flatMap Item.printed).length := by
  induction items with
  | nil => exact Nat.le_refl _
  | cons item items ih =>
    have here := shown_le_printed item
    rw [List.flatMap_cons, List.flatMap_cons, List.length_append, List.length_append]
    omega

theorem flatMap_printed_iff (items : List Item) :
    items.flatMap Item.printed = items.flatMap Item.shown ↔ ∀ item ∈ items, item.Fits := by
  induction items with
  | nil => simp
  | cons item items ih =>
    rw [List.flatMap_cons, List.flatMap_cons, List.forall_mem_cons]
    by_cases fits : item.Fits
    · rw [printed_of_fits fits, List.append_right_inj, ih]
      exact (and_iff_right fits).symm
    · constructor
      · intro same
        have lengths := congrArg List.length same
        have here := printed_longer fits
        have later := flatMap_shown_le items
        rw [List.length_append, List.length_append] at lengths
        omega
      · intro both
        exact absurd both.1 fits

theorem itoaDigit_nonzero {m : Nat} (small : m < 16) : itoaDigit m ≠ 0 := by
  have all : ∀ m < 16, itoaDigit m ≠ 0 := by decide
  exact all m small

theorem numeral_nonzero {base : Nat} (two : 1 < base) (low : base ≤ 16) (n : Nat) : 0 ∉ numeral base n := by
  intro member
  obtain ⟨m, is_digit, zero⟩ := List.mem_map.mp member
  have small := Numeral.digits_bounded two n m is_digit
  exact itoaDigit_nonzero (by omega) zero

theorem signedNumeral_nonzero (value : Int) : 0 ∉ signedNumeral value := by
  have inner : 0 ∉ numeral 10 value.natAbs := numeral_nonzero (by decide) (by decide) _
  unfold signedNumeral
  split
  · rw [List.mem_cons, not_or]
    exact ⟨by decide, inner⟩
  · exact inner

theorem shown_nonzero {item : Item} (notNul : item.NotNul) : 0 ∉ item.shown := by
  cases item with
  | literal ch plain => simpa [Item.shown] using Ne.symm plain.2
  | d arg => exact signedNumeral_nonzero _
  | x arg => exact numeral_nonzero (by decide) (by decide) _
  | ld arg => exact signedNumeral_nonzero _
  | lx arg => exact numeral_nonzero (by decide) (by decide) _
  | s text nonzero => exact nonzero
  | c arg => simpa [Item.shown] using Ne.symm notNul

theorem strlen_eq {str : List UInt8} (nonzero : 0 ∉ str) : strlen (str ++ [0]) = str.length := by
  have whole : str.takeWhile (· != 0) = str := by
    rw [List.takeWhile_eq_self_iff]
    intro ch member
    rw [bne_iff_ne]
    intro zero
    exact nonzero (zero ▸ member)
  rw [strlen, List.takeWhile_append, if_pos (by rw [whole])]
  simp

/-- The text is what the parts stand for, and its length is returned unless a `%c` puts a 0 into it. -/
def Renders (items : List Item) : Prop := ∃ str count,
  vsprintf (items.flatMap Item.format) (items.flatMap Item.args) = .ok (str, count) ∧
  str = items.flatMap Item.shown ∧ ((∀ item ∈ items, item.NotNul) → count = str.length)

/-- `vsprintf` renders its arguments exactly if no `%d` has the least `int` and no `%x` a number from `2^31` on. -/
theorem vsprintf_renders_iff (items : List Item) : Renders items ↔ ∀ item ∈ items, item.Fits := by
  have ran := formatLoop_items items []
  rw [List.nil_append] at ran
  rw [← flatMap_printed_iff]
  constructor
  · intro renders
    obtain ⟨str, count, returned, right, -⟩ := renders
    rw [vsprintf, ran] at returned
    cases returned
    exact right
  · intro right
    refine ⟨items.flatMap Item.printed, strlen (items.flatMap Item.printed ++ [0]), ?_, right, ?_⟩
    · rw [vsprintf, ran]
      rfl
    · intro notNul
      apply strlen_eq
      rw [right, List.mem_flatMap]
      rintro ⟨item, member, zero⟩
      exact shown_nonzero (notNul item member) zero

def ascii (text : String) : List UInt8 := text.toList.map fun ch => UInt8.ofNat ch.toNat

theorem extremes_misprinted : vsprintf (ascii "%x") [.word 0x80000000] = .ok (ascii "FFFFFFFF80000000", 16) ∧
    vsprintf (ascii "%d") [.word 0x80000000] = .ok (ascii "-18446744071562067968", 21) ∧
    ¬ Renders [.x 0x80000000] ∧ ¬ Renders [.d 0x80000000] := by
  have hex : vsprintf (ascii "%x") [.word 0x80000000] = .ok (ascii "FFFFFFFF80000000", 16) := by decide +kernel
  have decimal : vsprintf (ascii "%d") [.word 0x80000000] = .ok (ascii "-18446744071562067968", 21) := by decide +kernel
  refine ⟨hex, decimal, ?_, ?_⟩
  · intro renders
    obtain ⟨str, count, returned, right, -⟩ := renders
    have same := returned.symm.trans hex
    cases same
    exact absurd right (by decide +kernel)
  · intro renders
    obtain ⟨str, count, returned, right, -⟩ := renders
    have same := returned.symm.trans decimal
    cases same
    exact absurd right (by decide +kernel)

end RecoverOs.Lib
