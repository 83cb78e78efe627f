import RecoverOs.Lib.Stdio

namespace RecoverOs.Device

open Lib Transition

/-- `curl` and `curr` are the cursor registers 0x0e and 0x0f, and `stores` are the cells written so far. Cells are
    counted from the display base, so the row in front of it has the cells -80 to -1. -/
structure Display where
  cells : Int → Nat
  curl : Nat
  curr : Nat
  property : UInt8
  changeProperty : Bool
  stores : List Int

def getCur (d : Display) : Nat := (d.curl * 2 ^ 8 + d.curr) % 2 ^ 16

def Display.setRegisters (d : Display) (cur : Nat) : Display := { d with curr := cur % 256, curl := cur / 2 ^ 8 % 256 }

def Display.scroll (d : Display) : Display :=
  { d with
    cells := fun i => if -80 ≤ i ∧ i < 80 * 25 then d.cells (i + 80) else d.cells i
    stores := d.stores ++ (List.range (80 * 26)).map fun i : Nat => (i : Int) - 80 }

def setCur (d : Display) (cur : Nat) : Display :=
  if 80 * 25 ≤ cur then d.scroll.setRegisters (cur - 80) else d.setRegisters cur

def Display.cell (d : Display) (c : UInt8) : Nat :=
  ((if 128 ≤ c.toNat then 2 ^ 16 - 256 + c.toNat else c.toNat) + d.property.toNat * 2 ^ 8) % 2 ^ 16

def Display.store (d : Display) (i : Nat) (c : UInt8) : Display :=
  { d with cells := Function.update d.cells i (d.cell c), stores := d.stores ++ [(i : Int)] }

def Display.blanks : Nat → Nat → Display → Display
  | _, 0, d => d
  | i, cnt + 1, d => Display.blanks (i + 1) cnt (d.store i 0x20)

def clsScreen (d : Display) : Display := setCur (d.blanks 0 (80 * 25)) 0

def putChar (d : Display) (c : UInt8) : Display :=
  if d.changeProperty then { d with property := c, changeProperty := false }
  else
    let cur := getCur d
    if c = 0x1b then { d with changeProperty := true }
    else if c = 0x0c then clsScreen d
    else if c = 0x0d then setCur d (cur / 80 * 80)
    else if c = 0x0a then setCur d ((cur / 80 + 1) * 80 % 2 ^ 16)
    else if c = 0x08 then
      let cur := (cur + (2 ^ 16 - 1)) % 2 ^ 16
      (setCur d cur).store cur 0x20
    else if c = 0x09 then
      let newCur := (cur / 8 + 1) * 8 % 2 ^ 16
      setCur (d.blanks cur (newCur + 1 - cur)) newCur
    else setCur (d.store cur c) ((cur + 1) % 2 ^ 16)

def putBytes (d : Display) (str : List UInt8) : Display := str.foldl putChar d

def putStr (d : Display) (str : List UInt8) : Display := putBytes d str

def putNumDigit (num : Nat) : UInt8 :=
  let c := num % 16 + 0x30
  UInt8.ofNat (if 0x39 < c then c + (0x61 - 0x39 - 1) else c)

def fillDigits : Nat → Nat → List UInt8
  | 0, _ => []
  | left + 1, num => putNumDigit num :: fillDigits left (num / 16)

def emitDigits (dbuf : List UInt8) : Nat → Bool → List UInt8
  | 0, _ => [dbuf.getD 0 0]
  | i + 1, suf =>
    if dbuf.getD (i + 1) 0 ≠ 0x30 ∨ suf = true then dbuf.getD (i + 1) 0 :: emitDigits dbuf i true
    else emitDigits dbuf i suf

def numChars (num : Nat) : List UInt8 := emitDigits (fillDigits 16 num) 15 false

/-- The cursor is on the screen, and all cells written so far lie in the rows -1 to 25. -/
structure OnScreen (d : Display) : Prop where
  cursor : getCur d < 80 * 25
  rows : ∀ i ∈ d.stores, -80 ≤ i ∧ i < 80 * 26

/-- A backspace, and not the attribute behind an escape, at the first cell of the screen. -/
def BackspaceAtStart (d : Display) (c : UInt8) : Prop := d.changeProperty = false ∧ c = 0x08 ∧ getCur d = 0

def Display.cleared (d : Display) : Display := { clsScreen d with stores := [] }

variable {d : Display}

theorem getCur_setRegisters {cur : Nat} (d : Display) (word : cur < 2 ^ 16) : getCur (d.setRegisters cur) = cur := by
  unfold getCur Display.setRegisters
  dsimp only
  omega

theorem getCur_setCur {cur : Nat} (d : Display) (word : cur < 2 ^ 16) :
    getCur (setCur d cur) = if 80 * 25 ≤ cur then cur - 80 else cur := by
  unfold setCur
  split
  · exact getCur_setRegisters _ (by omega)
  · exact getCur_setRegisters _ word

theorem scroll_stores (d : Display) (cur : Nat) : (d.scroll.setRegisters cur).stores =
    d.stores ++ (List.range (80 * 26)).map fun i : Nat => (i : Int) - 80 := rfl

theorem moved_rows {cnt : Nat} {i : Int} (moved : i ∈ (List.range cnt).map fun i : Nat => (i : Int) - 80) :
    -80 ≤ i ∧ i < (cnt : Int) - 80 := by
  obtain ⟨k, member, same⟩ := List.mem_map.mp moved
  have bound := List.mem_range.mp member
  omega

theorem setCur_onScreen {cur : Nat} (rows : ∀ i ∈ d.stores, -80 ≤ i ∧ i < 80 * 26) (inside : cur ≤ 80 * 25) :
    OnScreen (setCur d cur) := by
  constructor
  · rw [getCur_setCur d (by omega)]
    split <;> omega
  · intro i stored
    unfold setCur at stored
    split at stored
    · rw [scroll_stores, List.mem_append] at stored
      rcases stored with before | moved
      · exact rows i before
      · have bounds := moved_rows moved
        omega
    · exact rows i stored

theorem store_rows {k : Nat} (rows : ∀ i ∈ d.stores, -80 ≤ i ∧ i < 80 * 26) (c : UInt8) (inside : k < 80 * 26) :
    ∀ i ∈ (d.store k c).stores, -80 ≤ i ∧ i < 80 * 26 := by
  intro i stored
  rcases List.mem_append.mp stored with before | here
  · exact rows i before
  · have same := List.mem_singleton.mp here
    omega

theorem blanks_rows {k cnt : Nat} (rows : ∀ i ∈ d.stores, -80 ≤ i ∧ i < 80 * 26) (inside : k + cnt ≤ 80 * 26) :
    ∀ i ∈ (d.blanks k cnt).stores, -80 ≤ i ∧ i < 80 * 26 := by
  induction cnt generalizing d k with
  | zero => exact rows
  | succ cnt ih => exact ih (store_rows rows 0x20 (by omega)) (by omega)

theorem getCur_stores (d : Display) (stores : List Int) : getCur { d with stores := stores } = getCur d := rfl

theorem getCur_store (d : Display) (k : Nat) (c : UInt8) : getCur (d.store k c) = getCur d := rfl

theorem getCur_cleared (d : Display) : getCur d.cleared = 0 := by
  rw [Display.cleared, getCur_stores, clsScreen, getCur_setCur _ (by decide)]
  rfl

theorem cleared_onScreen (d : Display) : OnScreen d.cleared := by
  constructor
  · rw [getCur_cleared]
    decide
  · intro i stored
    cases stored

theorem setCur_changeProperty (d : Display) (cur : Nat) : (setCur d cur).changeProperty = d.changeProperty := by
  unfold setCur
  split <;> rfl

theorem blanks_changeProperty (d : Display) (i cnt : Nat) : (d.blanks i cnt).changeProperty = d.changeProperty := by
  induction cnt generalizing d i with
  | zero => rfl
  | succ cnt ih => exact ih (d.store i 0x20) (i + 1)

theorem cleared_changeProperty (d : Display) : d.cleared.changeProperty = d.changeProperty := by
  rw [Display.cleared, clsScreen]
  dsimp only
  rw [setCur_changeProperty, blanks_changeProperty]

theorem putChar_backspace (start : BackspaceAtStart d 0x08) :
    putChar d 0x08 = (setCur d (2 ^ 16 - 1)).store (2 ^ 16 - 1) 0x20 := by
  obtain ⟨read, -, first⟩ := start
  unfold putChar
  rw [if_neg (by rw [read]; decide), first]
  rfl

theorem getCur_backspace (start : BackspaceAtStart d 0x08) : getCur (putChar d 0x08) = 65455 := by
  rw [putChar_backspace start, getCur_store, getCur_setCur _ (by decide), if_pos (by decide)]
  rfl

theorem backspace_leaves (start : BackspaceAtStart d 0x08) : ¬ OnScreen (putChar d 0x08) := by
  intro onScreen
  have cursor := onScreen.cursor
  rw [getCur_backspace start] at cursor
  exact absurd cursor (by decide)

theorem putChar_onScreen_iff (onScreen : OnScreen d) (c : UInt8) :
    OnScreen (putChar d c) ↔ ¬ BackspaceAtStart d c := by
  have cursor := onScreen.cursor
  have rows := onScreen.rows
  constructor
  · intro stays start
    have same := start.2.1
    subst same
    exact backspace_leaves start stays
  · intro other
    unfold putChar
    split
    · exact ⟨cursor, rows⟩
    · rename_i read
      dsimp only
      split
      · exact ⟨cursor, rows⟩
      split
      · exact setCur_onScreen (blanks_rows rows (by decide)) (by decide)
      split
      · exact setCur_onScreen rows (by omega)
      split
      · have next_row : (getCur d / 80 + 1) * 80 ≤ 80 * 25 := by omega
        exact setCur_onScreen rows (Nat.le_trans (Nat.mod_le ..) next_row)
      split
      · rename_i backspace
        have positive : getCur d ≠ 0 := fun first => other ⟨Bool.eq_false_iff.mpr read, backspace, first⟩
        have left : OnScreen (setCur d ((getCur d + (2 ^ 16 - 1)) % 2 ^ 16)) := setCur_onScreen rows (by omega)
        constructor
        · rw [getCur_store]
          exact left.cursor
        · exact store_rows left.rows 0x20 (by omega)
      split
      · have stop : (getCur d / 8 + 1) * 8 % 2 ^ 16 ≤ 80 * 25 := by omega
        exact setCur_onScreen (blanks_rows rows (by omega)) stop
      · exact setCur_onScreen (store_rows rows c (by omega)) (by omega)

/-- After every byte the cursor is on the screen exactly if no backspace comes at its first cell. -/
theorem console_stays_iff (d : Display) (str : List UInt8) :
    (∀ front back, str = front ++ back → OnScreen (putBytes d.cleared front)) ↔
      ∀ front c back, str = front ++ c :: back → ¬ BackspaceAtStart (putBytes d.cleared front) c := by
  have exact_step : ∀ (s : Display) (c : UInt8), OnScreen s → True → (OnScreen (putChar s c) ↔ ¬ BackspaceAtStart s c) :=
    fun _ c onScreen _ => putChar_onScreen_iff onScreen c
  exact foldl_good_iff exact_step (cleared_onScreen d) str fun _ _ _ _ => True.intro

theorem putBytes_single (d : Display) (c : UInt8) : putBytes d [c] = putChar d c := rfl

def someDisplay : Display :=
  { cells := fun _ => 0x0741, curl := 0, curr := 0, property := 0x07, changeProperty := false, stores := [] }

/-- A backspace on the cleared screen: the cursor comes to lie behind it, as does the cell that is blanked. -/
theorem backspace_leaves_screen : getCur (putBytes someDisplay.cleared [0x08]) = 65455 ∧
    (65535 : Int) ∈ (putBytes someDisplay.cleared [0x08]).stores ∧ ¬ OnScreen (putBytes someDisplay.cleared [0x08]) := by
  have read : someDisplay.cleared.changeProperty = false := cleared_changeProperty someDisplay
  have start : BackspaceAtStart someDisplay.cleared 0x08 := ⟨read, rfl, getCur_cleared someDisplay⟩
  have last : (65535 : Int) ∈ (putChar someDisplay.cleared 0x08).stores := by
    rw [putChar_backspace start]
    exact List.mem_append_right _ List.mem_cons_self
  rw [putBytes_single]
  exact ⟨getCur_backspace start, last, backspace_leaves start⟩

def lowerDigit (m : Nat) : UInt8 := if m < 10 then UInt8.ofNat (m + 0x30) else UInt8.ofNat (m + 0x61 - 10)

def lowerCase (ch : UInt8) : UInt8 := if 0x41 ≤ ch.toNat ∧ ch.toNat ≤ 0x5a then ch + 0x20 else ch

def digitValue (ch : UInt8) : Option Nat :=
  if 0x30 ≤ ch.toNat ∧ ch.toNat ≤ 0x39 then some (ch.toNat - 0x30)
  else if 0x41 ≤ ch.toNat ∧ ch.toNat ≤ 0x46 then some (ch.toNat - 0x41 + 10)
  else if 0x61 ≤ ch.toNat ∧ ch.toNat ≤ 0x66 then some (ch.toNat - 0x61 + 10)
  else none

def readBack (base : Nat) (str : List UInt8) : Option Nat := do
  let ds ← str.mapM digitValue
  if ds.all fun d => decide (d < base) then some (Numeral.value base ds) else none

structure CanonicalNumeral (base n : Nat) (str : List UInt8) : Prop where
  some_left : str ≠ []
  leading : str.head? = some 0x30 → str = [0x30]
  value : readBack base str = some n

theorem mapM_digits {digit : Nat → UInt8} {ds : List Nat} (reads : ∀ d ∈ ds, digitValue (digit d) = some d) :
    (ds.map digit).mapM digitValue = some ds := by
  induction ds with
  | nil => rfl
  | cons d ds ih =>
    rw [List.forall_mem_cons] at reads
    rw [List.map_cons, List.mapM_cons, reads.1, ih reads.2]
    rfl

theorem canonical_text {digit : Nat → UInt8} {base : Nat} (reads : ∀ d < 16, digitValue (digit d) = some d)
    (two : 1 < base) (low : base ≤ 16) (n : Nat) : CanonicalNumeral base n ((Numeral.digits base n).map digit) := by
  have canonical := Numeral.canonical_digits two n
  constructor
  · intro none_left
    exact canonical.some_left (List.map_eq_nil_iff.mp none_left)
  · intro zero_first
    rw [List.head?_map] at zero_first
    obtain ⟨d, first, is_zero⟩ := Option.map_eq_some_iff.mp zero_first
    have small := canonical.bounded d (List.mem_of_head? first)
    have read := reads d (by omega)
    rw [is_zero] at read
    have d_zero : d = 0 := (Option.some.inj read).symm
    rw [canonical.leading (d_zero ▸ first), List.map_singleton, ← d_zero, is_zero]
  · have all_small : ((Numeral.digits base n).all fun d => decide (d < base)) = true := by
      rw [List.all_eq_true]
      intro d member
      exact decide_eq_true (canonical.bounded d member)
    have small : ∀ d ∈ Numeral.digits base n, digitValue (digit d) = some d := by
      intro d member
      exact reads d (Nat.lt_of_lt_of_le (canonical.bounded d member) low)
    rw [readBack, mapM_digits small]
    show (if _ then _ else _) = some n
    rw [if_pos all_small, canonical.value]

theorem fillDigits_get {left i : Nat} (inside : i < left) (num : Nat) :
    (fillDigits left num).getD i 0 = lowerDigit (num / 16 ^ i % 16) := by
  induction left generalizing i num with
  | zero => omega
  | succ left ih =>
    cases i with
    | zero =>
      have all : ∀ m < 16, UInt8.ofNat (if 0x39 < m + 0x30 then m + 0x30 + (0x61 - 0x39 - 1) else m + 0x30) =
          lowerDigit m := by decide
      rw [fillDigits, List.getD_cons_zero, Nat.pow_zero, Nat.div_one]
      exact all (num % 16) (Nat.mod_lt _ (by decide))
    | succ i =>
      rw [fillDigits, List.getD_cons_succ, ih (Nat.lt_of_succ_lt_succ inside), Nat.pow_succ', Nat.div_div_eq_div_mul]

theorem emitDigits_all (dbuf : List UInt8) (i : Nat) :
    emitDigits dbuf i true = ((List.range (i + 1)).map fun j => dbuf.getD j 0).reverse := by
  induction i with
  | zero => rfl
  | succ i ih =>
    rw [emitDigits, if_pos (.inr rfl), ih, List.range_succ (n := i + 1), List.map_append, List.reverse_append]
    rfl

theorem emitDigits_eq {dbuf : List UInt8} {num i : Nat} (below : num < 16 ^ (i + 1))
    (filled : ∀ j ≤ i, dbuf.getD j 0 = lowerDigit (num / 16 ^ j % 16)) :
    emitDigits dbuf i false = (Numeral.digits 16 num).map lowerDigit := by
  induction i with
  | zero =>
    rw [Nat.zero_add, Nat.pow_one] at below
    rw [emitDigits, filled 0 (Nat.le_refl 0), Nat.pow_zero, Nat.div_one, Nat.mod_eq_of_lt below,
      Numeral.digits_small below]
    rfl
  | succ i ih =>
    have not_zero : ∀ m < 16, m ≠ 0 → lowerDigit m ≠ 0x30 := by decide
    have top_small : num / 16 ^ (i + 1) < 16 := by
      rw [Nat.div_lt_iff_lt_mul (Nat.pow_pos (by decide)), Nat.mul_comm, ← Nat.pow_succ]
      exact below
    have top_digit := filled (i + 1) (Nat.le_refl _)
    rw [Nat.mod_eq_of_lt top_small] at top_digit
    rw [emitDigits, top_digit]
    by_cases top : num / 16 ^ (i + 1) = 0
    · have shorter : num < 16 ^ (i + 1) := by
        rwa [Nat.div_eq_zero_iff_lt (Nat.pow_pos (by decide))] at top
      have skipped : ¬ (lowerDigit (num / 16 ^ (i + 1)) ≠ 0x30 ∨ false = true) := by
        rw [top]
        decide
      rw [if_neg skipped]
      exact ih shorter fun j low => filled j (Nat.le_succ_of_le low)
    · rw [if_pos (.inl (not_zero _ top_small top)), emitDigits_all, Numeral.digits_places (by decide) below top,
        List.map_reverse, List.map_map, List.range_succ (n := i + 1), List.map_append, List.reverse_append]
      simp only [List.map_singleton, List.reverse_singleton, List.singleton_append, Function.comp_def,
        Nat.mod_eq_of_lt top_small]
      congr 2
      apply List.map_congr_left
      intro j member
      exact filled j (Nat.le_of_lt (List.mem_range.mp member))

theorem numChars_eq {num : Nat} (word : num < 2 ^ 64) : numChars num = (Numeral.digits 16 num).map lowerDigit :=
  emitDigits_eq word fun _ low => fillDigits_get (Nat.lt_succ_of_le low) num

/-- `put_num` and `itoa` write the same numeral, in lower and in upper case, and `itoa` writes decimal numerals as well. -/
theorem printers_agree (n : UInt64) : numChars n.toNat = (itoa 16 (by decide) n.toNat []).map lowerCase ∧
    CanonicalNumeral 16 n.toNat (numChars n.toNat) ∧ CanonicalNumeral 16 n.toNat (itoa 16 (by decide) n.toNat []) ∧
    CanonicalNumeral 10 n.toNat (itoa 10 (by decide) n.toNat []) := by
  have lower_reads : ∀ d < 16, digitValue (lowerDigit d) = some d := by decide
  have upper_reads : ∀ d < 16, digitValue (itoaDigit d) = some d := by decide
  have same_case : ∀ d < 16, lowerDigit d = lowerCase (itoaDigit d) := by decide
  rw [numChars_eq n.toNat_lt, itoa_eq, itoa_eq, List.nil_append, List.nil_append]
  refine ⟨?_, canonical_text lower_reads (by decide) (by decide) _, canonical_text upper_reads (by decide) (by decide) _,
    canonical_text upper_reads (by decide) (by decide) _⟩
  rw [numeral, List.map_map]
  apply List.map_congr_left
  intro d member
  exact same_case d (Numeral.digits_bounded (by decide) _ d member)

end RecoverOs.Device
