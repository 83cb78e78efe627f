import RecoverOs.Memory.KernelHalf

namespace RecoverOs.Memory

open Bytes Lib Forest Transition

def pageBase : Nat := 0x100000

def put (phys : Nat → Buffer) (width addr n : Nat) : Nat → Buffer :=
  Function.update phys (addr / pgSize) (copy (phys (addr / pgSize)) (addr % pgSize) (byteOf n) width)

def pml4Clear (phys : Nat → Buffer) : Nat → Nat → Buffer
  | 0 => phys
  | ecx + 1 => pml4Clear (put phys 1 (ecx + 1 + pageBase - 1) 0) ecx

def createPte (phys : Nat → Buffer) : Nat → Nat → Nat → Nat → Buffer
  | 0, _, _ => phys
  | ecx + 1, ebx, eax => createPte (put phys 4 (8 * ebx + pageBase + 0x3000) eax) ecx (ebx + 1) (eax + 0x1000)

def bootTables (phys : Nat → Buffer) : Nat → Buffer :=
  let phys := pml4Clear phys 0x1000
  let phys := put phys 4 pageBase (pageBase + 0x1007)
  let phys := put phys 4 (pageBase + 0x1000) (pageBase + 0x2007)
  let phys := put phys 4 (pageBase + 0x2000) (pageBase + 0x3007)
  let phys := put phys 4 (pageBase + 0x800) (pageBase + 0x1007 - 4)
  createPte phys 512 0 7

def memBytesTotal : Nat := 0x8000000

def pteCnt : Nat := divRoundUp memBytesTotal pgSize

def pdteCnt : Nat := divRoundUp pteCnt 512

def mapTable (phys : Nat → Buffer) (i pt : Nat) : Nat → Nat → Buffer
  | 0 => phys
  | j + 1 => put (mapTable phys i pt j) 8 (pt + 8 * j) (i * 0x200000 + j * pgSize + prot)

/-- The outer loop: `pts` is the physical address behind the pointer of this name, and the loop is at `i + 1`. -/
def mapTables (phys : Nat → Buffer) (pts : Nat) : Nat → Nat → Buffer
  | 0 => phys
  | i + 1 => mapTable (put (mapTables phys pts i) 8 (0x102000 + 8 * (i + 1)) (pts + (i + 1) * pgSize + prot)) (i + 1)
      (pts + (i + 1) * pgSize) 512

/-- `map_all_phy_mem`, for the pages from `first` on that `alloc_pages` hands out. -/
def mapAllPhyMem (phys : Nat → Buffer) (first : Nat) : Nat → Buffer :=
  mapTables (put phys 8 0x100000 0) (first * pgSize - pgSize) (pdteCnt - 1)

variable {phys : Nat → Buffer} {page idx width n x j i first : Nat}

def FillsEntry (phys : Nat → Buffer) (page idx width n : Nat) : Prop :=
  (width = 8 ∧ n < 2 ^ 64) ∨ (width = 4 ∧ n < 2 ^ 32 ∧ entryAt phys page idx < 2 ^ 32)

theorem bootTables_stores (phys : Nat → Buffer) : bootTables phys = createPte (put (put (put (put (pml4Clear phys 0x1000) 4
    (0x100 * pgSize + 8 * 0) (pageBase + 0x1007)) 4 (0x101 * pgSize + 8 * 0) (pageBase + 0x2007)) 4
    (0x102 * pgSize + 8 * 0) (pageBase + 0x3007)) 4 (0x100 * pgSize + 8 * 256) (pageBase + 0x1007 - 4)) 512 0 7 := rfl

theorem put_entry (phys : Nat → Buffer) (width page n : Nat) (inside : idx < 512) :
    put phys width (page * pgSize + 8 * idx) n =
      Function.update phys page (copy (phys page) (8 * idx) (byteOf n) width) := by
  have number : (page * pgSize + 8 * idx) / pgSize = page := by
    simp only [pgSize]
    omega
  have offset : (page * pgSize + 8 * idx) % pgSize = 8 * idx := by
    simp only [pgSize]
    omega
  rw [put, number, offset]

theorem put_page (other : x ≠ page) (inside : idx < 512) : put phys width (page * pgSize + 8 * idx) n x = phys x := by
  rw [put_entry phys width page n inside]
  exact Function.update_of_ne other _ _

theorem entryAt_put (fills : FillsEntry phys page idx width n) (inside : idx < 512) :
    entryAt (put phys width (page * pgSize + 8 * idx) n) x j =
      if x = page ∧ j = idx then n else entryAt phys x j := by
  by_cases here : x = page ∧ j = idx
  · obtain ⟨rfl, rfl⟩ := here
    rw [if_pos ⟨rfl, rfl⟩, entryAt, put_entry phys width x n inside, Function.update_self]
    rcases fills with ⟨wide, fits⟩ | ⟨short, fits, old⟩
    · apply wordAt_byteOf
      · intro k less
        rw [wide, copy_inside (by omega) (by omega), Nat.add_sub_cancel_left]
      · exact fits
    · apply wordAt_byteOf
      · intro k less
        by_cases low : k < 4
        · rw [short, copy_inside (by omega) (by omega), Nat.add_sub_cancel_left]
        · have upper : ∀ v, v < 2 ^ 32 → byteOf v k = 0 := by
            intro v small
            have big : 256 ^ 4 ≤ 256 ^ k := Nat.pow_le_pow_right (by decide) (by omega)
            rw [byteOf, Nat.div_eq_of_lt (by omega)]
            rfl
          rw [copy_outside (by omega), upper n fits, ← upper _ old]
          exact (byteOf_wordAt less).symm
      · exact Nat.lt_of_lt_of_le fits (by decide)
  · rw [if_neg here]
    by_cases same : x = page
    · have apart : j ≠ idx := fun equal => here ⟨same, equal⟩
      have short : width ≤ 8 := by
        rcases fills with both | both
        · omega
        · omega
      rw [entryAt, entryAt, put_entry phys width page n inside, same, Function.update_self]
      apply wordAt_congr
      intro k less
      exact copy_outside (by omega)
    · rw [entryAt, put_page same inside]
      rfl

theorem createPte_succ (phys : Nat → Buffer) (ecx ebx eax : Nat) : createPte phys (ecx + 1) ebx eax =
    createPte (put phys 4 (0x103 * pgSize + 8 * ebx) eax) ecx (ebx + 1) (eax + 0x1000) := by
  have addr : 8 * ebx + pageBase + 0x3000 = 0x103 * pgSize + 8 * ebx := by
    simp only [pageBase, pgSize]
    omega
  rw [createPte, addr]

theorem createPte_entry (ecx ebx eax : Nat) (inside : ebx + ecx ≤ 512) (small : eax + ecx * 0x1000 < 2 ^ 32)
    (short : ∀ k < 512, entryAt phys 0x103 k < 2 ^ 32) : entryAt (createPte phys ecx ebx eax) x j =
      if x = 0x103 ∧ ebx ≤ j ∧ j < ebx + ecx then eax + (j - ebx) * 0x1000 else entryAt phys x j := by
  induction ecx generalizing phys ebx eax with
  | zero => rw [createPte, if_neg (by omega)]
  | succ ecx ih =>
    have fills : FillsEntry phys 0x103 ebx 4 eax := .inr ⟨rfl, by omega, short ebx (by omega)⟩
    rw [createPte_succ, ih (ebx + 1) (eax + 0x1000) (by omega) (by omega)]
    · rw [entryAt_put fills (by omega)]
      split
      · rw [if_pos (by omega)]
        omega
      · split
        · rw [if_pos (by omega)]
          omega
        · rw [if_neg (by omega)]
    · intro k less
      rw [entryAt_put fills (by omega)]
      split
      · omega
      · exact short k less

theorem pml4Clear_byte (ecx : Nat) (inside : ecx ≤ 0x1000) (k : Nat) :
    pml4Clear phys ecx x k = if x = 0x100 ∧ k < ecx then 0 else phys x k := by
  induction ecx generalizing phys with
  | zero => rw [pml4Clear, if_neg (by omega)]
  | succ ecx ih =>
    have number : (ecx + 1 + pageBase - 1) / pgSize = 0x100 := by
      simp only [pageBase, pgSize]
      omega
    have offset : (ecx + 1 + pageBase - 1) % pgSize = ecx := by
      simp only [pageBase, pgSize]
      omega
    rw [pml4Clear, ih (by omega), put, number, offset]
    by_cases here : x = 0x100
    · rw [here, Function.update_self]
      by_cases low : k < ecx
      · rw [if_pos ⟨rfl, low⟩, if_pos ⟨rfl, by omega⟩]
      · rw [if_neg fun both => low both.2]
        by_cases last : k = ecx
        · rw [copy_inside (by omega) (by omega), if_pos ⟨rfl, by omega⟩, last, Nat.sub_self]
          rfl
        · rw [copy_outside (by omega), if_neg (by omega)]
    · rw [if_neg fun both => here both.1, Function.update_of_ne here, if_neg fun both => here both.1]

/-- The three pages behind the top-level table are filled with zeros before the boot sector runs. -/
def TablesZero (phys : Nat → Buffer) : Prop := ∀ x, 0x101 ≤ x → x ≤ 0x103 → ∀ k < pgSize, phys x k = 0

def bootEntry (x j : Nat) : Nat :=
  if x = 0x100 then if j = 256 then 0x101003 else if j = 0 then 0x101007 else 0
  else if x = 0x101 then if j = 0 then 0x102007 else 0
  else if x = 0x102 then if j = 0 then 0x103007 else 0
  else 7 + j * 0x1000

theorem bootTables_entry (zero : TablesZero phys) (low : 0x100 ≤ x) (high : x ≤ 0x103) (inside : j < 512) :
    entryAt (bootTables phys) x j = bootEntry x j := by
  have cleared : ∀ y, 0x100 ≤ y → y ≤ 0x103 → ∀ k < 512, entryAt (pml4Clear phys 0x1000) y k = 0 := by
    intro y from_pml4 to_table k less
    apply wordAt_zero
    intro i small
    rw [pml4Clear_byte 0x1000 (Nat.le_refl _)]
    split
    · rfl
    · exact zero y (by omega) to_table _ (by simp only [pgSize]; omega)
  have stored : ∀ (tables : Nat → Buffer) (page idx n : Nat), n < 2 ^ 32 → entryAt tables page idx = 0 → idx < 512 →
      ∀ y k, entryAt (put tables 4 (page * pgSize + 8 * idx) n) y k =
        if y = page ∧ k = idx then n else entryAt tables y k := by
    intro tables page idx n fits old less y k
    exact entryAt_put (.inr ⟨rfl, fits, by rw [old]; decide⟩) less
  rw [bootTables_stores]
  generalize start : pml4Clear phys 0x1000 = t0 at cleared
  have first := stored t0 0x100 0 (pageBase + 0x1007) (by decide) (cleared _ (by decide) (by decide) _ (by decide))
    (by decide)
  generalize put t0 4 (0x100 * pgSize + 8 * 0) (pageBase + 0x1007) = t1 at first
  have second := stored t1 0x101 0 (pageBase + 0x2007) (by decide)
    (by rw [first, if_neg (by decide), cleared _ (by decide) (by decide) _ (by decide)]) (by decide)
  generalize put t1 4 (0x101 * pgSize + 8 * 0) (pageBase + 0x2007) = t2 at second
  have third := stored t2 0x102 0 (pageBase + 0x3007) (by decide)
    (by rw [second, if_neg (by decide), first, if_neg (by decide), cleared _ (by decide) (by decide) _ (by decide)])
    (by decide)
  generalize put t2 4 (0x102 * pgSize + 8 * 0) (pageBase + 0x3007) = t3 at third
  have fourth := stored t3 0x100 256 (pageBase + 0x1007 - 4) (by decide)
    (by rw [third, if_neg (by decide), second, if_neg (by decide), first, if_neg (by decide),
      cleared _ (by decide) (by decide) _ (by decide)]) (by decide)
  generalize put t3 4 (0x100 * pgSize + 8 * 256) (pageBase + 0x1007 - 4) = t4 at fourth
  have all : ∀ y, 0x100 ≤ y → y ≤ 0x103 → ∀ k < 512, entryAt t4 y k =
      if y = 0x100 ∧ k = 256 then 0x101003 else if y = 0x102 ∧ k = 0 then 0x103007
      else if y = 0x101 ∧ k = 0 then 0x102007 else if y = 0x100 ∧ k = 0 then 0x101007 else 0 := by
    intro y from_pml4 to_table k less
    rw [fourth, third, second, first, cleared y from_pml4 to_table k less]
    rfl
  rw [createPte_entry 512 0 7 (by decide) (by decide), all x low high j inside]
  · have which : x = 0x100 ∨ x = 0x101 ∨ x = 0x102 ∨ x = 0x103 := by omega
    rcases which with rfl | rfl | rfl | rfl <;> simp [bootEntry, inside]
  · intro k less
    rw [all 0x103 (by decide) (by decide) k less]
    simp

theorem mapTable_entry {pt cnt : Nat} (small : i < 64) (inside : cnt ≤ 512) :
    entryAt (mapTable phys i (pt * pgSize) cnt) x j =
      if x = pt ∧ j < cnt then i * 0x200000 + j * pgSize + prot else entryAt phys x j := by
  induction cnt with
  | zero => rw [mapTable, if_neg (by omega)]
  | succ cnt ih =>
    have fits : i * 0x200000 + cnt * pgSize + prot < 2 ^ 64 := by
      simp only [pgSize, prot]
      omega
    rw [mapTable, entryAt_put (.inl ⟨rfl, fits⟩) (by omega), ih (by omega)]
    by_cases last : x = pt ∧ j = cnt
    · rw [if_pos last, if_pos ⟨last.1, by omega⟩, last.2]
    · rw [if_neg last]
      by_cases before : x = pt ∧ j < cnt
      · rw [if_pos before, if_pos ⟨before.1, by omega⟩]
      · rw [if_neg before, if_neg (by omega)]

theorem mapTable_page {pt cnt : Nat} (other : x ≠ pt) (inside : cnt ≤ 512) :
    mapTable phys i (pt * pgSize) cnt x = phys x := by
  induction cnt with
  | zero => rfl
  | succ cnt ih => rw [mapTable, put_page other (by omega), ih (by omega)]

def mapEntry (phys : Nat → Buffer) (first cnt x j : Nat) : Nat :=
  if x = 0x102 ∧ 1 ≤ j ∧ j ≤ cnt then (first + j - 1) * pgSize + prot
  else if first ≤ x ∧ x < first + cnt then (x - first + 1) * 0x200000 + j * pgSize + prot
  else entryAt phys x j

theorem mapTables_succ (phys : Nat → Buffer) (cnt : Nat) (low : 0x104 ≤ first) :
    mapTables phys (first * pgSize - pgSize) (cnt + 1) =
      mapTable (put (mapTables phys (first * pgSize - pgSize) cnt) 8 (0x102 * pgSize + 8 * (cnt + 1))
        ((first + cnt) * pgSize + prot)) (cnt + 1) ((first + cnt) * pgSize) 512 := by
  have table : first * pgSize - pgSize + (cnt + 1) * pgSize = (first + cnt) * pgSize := by
    simp only [pgSize]
    omega
  have entry : 0x102000 + 8 * (cnt + 1) = 0x102 * pgSize + 8 * (cnt + 1) := rfl
  rw [mapTables, table, entry]

theorem mapTables_entry {cnt : Nat} (low : 0x104 ≤ first) (high : first < 2 ^ 20) (small : cnt < 64) (inside : j < 512) :
    entryAt (mapTables phys (first * pgSize - pgSize) cnt) x j = mapEntry phys first cnt x j := by
  induction cnt generalizing x j with
  | zero => rw [mapTables, mapEntry, if_neg (by omega), if_neg (by omega)]
  | succ cnt ih =>
    have fits : (first + cnt) * pgSize + prot < 2 ^ 64 := by
      simp only [pgSize, prot]
      omega
    rw [mapTables_succ phys cnt low, mapTable_entry small (Nat.le_refl _), entryAt_put (.inl ⟨rfl, fits⟩) (by omega),
      ih (by omega) inside, mapEntry, mapEntry]
    by_cases directory : x = 0x102
    · rw [if_neg (by omega)]
      by_cases last : j = cnt + 1
      · rw [if_pos ⟨directory, last⟩, if_pos ⟨directory, by omega, by omega⟩, last]
        congr 2
      · rw [if_neg fun both => last both.2]
        by_cases before : 1 ≤ j ∧ j ≤ cnt
        · rw [if_pos ⟨directory, before⟩, if_pos ⟨directory, before.1, by omega⟩]
        · rw [if_neg fun both => before both.2, if_neg (by omega), if_neg (by omega), if_neg (by omega)]
    · by_cases last : x = first + cnt
      · rw [if_pos ⟨last, inside⟩, if_neg fun both => directory both.1, if_pos (by omega), last, Nat.add_sub_cancel_left]
      · have notDirectory : ∀ p : Prop, ¬ (x = 0x102 ∧ p) := fun _ both => directory both.1
        rw [if_neg fun both => last both.1, if_neg (notDirectory _), if_neg (notDirectory _)]
        by_cases before : first ≤ x ∧ x < first + cnt
        · rw [if_pos before, if_neg (notDirectory _), if_pos ⟨before.1, by omega⟩]
        · rw [if_neg before, if_neg (notDirectory _), if_neg (by omega)]

theorem mapTables_page {cnt : Nat} (low : 0x104 ≤ first) (small : cnt < 64) (directory : x ≠ 0x102)
    (outside : x < first ∨ first + cnt ≤ x) : mapTables phys (first * pgSize - pgSize) cnt x = phys x := by
  induction cnt with
  | zero => rfl
  | succ cnt ih =>
    rw [mapTables_succ phys cnt low, mapTable_page (by omega) (Nat.le_refl _), put_page directory (by omega)]
    exact ih (by omega) (by omega)

/-- The kernel half below `root` maps `memBytesTotal` bytes from `kernelAddrBase` on, and nothing else. -/
structure KernelTables (phys : Nat → Buffer) (root first : Nat) : Prop where
  top : ∀ i, 256 ≤ i → i < 512 → entryAt phys root i = if i = 256 then 0x101003 else 0
  pdpt : ∀ i < 512, entryAt phys 0x101 i = if i = 0 then 0x102007 else 0
  directory : ∀ i < 512, entryAt phys 0x102 i =
    if i = 0 then 0x103007 else if i < 64 then (first + i - 1) * pgSize + prot else 0
  firstTable : ∀ j < 512, entryAt phys 0x103 j = j * pgSize + prot
  table : ∀ i < 63, ∀ j < 512, entryAt phys (first + i) j = (i + 1) * 0x200000 + j * pgSize + prot

theorem mapAllPhyMem_entry (low : 0x104 ≤ first) (high : first < 2 ^ 20) (inside : j < 512) :
    entryAt (mapAllPhyMem phys first) x j =
      if x = 0x102 ∧ 1 ≤ j ∧ j ≤ 63 then (first + j - 1) * pgSize + prot
      else if first ≤ x ∧ x < first + 63 then (x - first + 1) * 0x200000 + j * pgSize + prot
      else if x = 0x100 ∧ j = 0 then 0 else entryAt phys x j := by
  have cnt : pdteCnt - 1 = 63 := by decide
  have cleared : entryAt (put phys 8 0x100000 0) x j = if x = 0x100 ∧ j = 0 then 0 else entryAt phys x j :=
    @entryAt_put phys 0x100 0 8 0 x j (.inl ⟨rfl, by decide⟩) (by decide)
  rw [mapAllPhyMem, cnt, mapTables_entry low high (by decide) inside, mapEntry, cleared]

theorem mapAllPhyMem_tables (zero : TablesZero phys) (low : 0x104 ≤ first) (high : first < 2 ^ 20) :
    KernelTables (mapAllPhyMem (bootTables phys) first) kernelPml4 first ∧
      ∀ j < 256, entryAt (mapAllPhyMem (bootTables phys) first) kernelPml4 j = 0 := by
  have entry := @mapAllPhyMem_entry (bootTables phys)
  have boot := @bootTables_entry phys
  generalize bootTables phys = tables at boot entry
  have pml4 : kernelPml4 = 0x100 := rfl
  rw [pml4]
  refine ⟨⟨?_, ?_, ?_, ?_, ?_⟩, ?_⟩
  · intro i half less
    rw [entry low high less, if_neg (by omega), if_neg (by omega), if_neg (by omega),
      boot zero (by decide) (by decide) less, bootEntry, if_pos rfl]
    split
    · rfl
    · exact if_neg (by omega)
  · intro i less
    rw [entry low high less, if_neg (by omega), if_neg (by omega), if_neg (by omega),
      boot zero (by decide) (by decide) less, bootEntry, if_neg (by decide), if_pos rfl]
  · intro i less
    by_cases new : 1 ≤ i ∧ i ≤ 63
    · rw [entry low high less, if_pos ⟨rfl, new⟩, if_neg (by omega), if_pos (by omega)]
    · rw [entry low high less, if_neg fun both => new both.2, if_neg (by omega), if_neg (by omega),
        boot zero (by decide) (by decide) less, bootEntry, if_neg (by decide), if_neg (by decide), if_pos rfl]
      split
      · rfl
      · rw [if_neg (by omega)]
  · intro j less
    rw [entry low high less, if_neg (by omega), if_neg (by omega), if_neg (by omega),
      boot zero (by decide) (by decide) less, bootEntry, if_neg (by decide), if_neg (by decide), if_neg (by decide)]
    simp only [pgSize, prot]
    omega
  · intro i small j less
    rw [entry low high less, if_neg (by omega), if_pos (by omega), Nat.add_sub_cancel_left]
  · intro j less
    rw [entry low high (by omega), if_neg (by omega), if_neg (by omega)]
    by_cases zeroth : j = 0
    · exact if_pos ⟨rfl, zeroth⟩
    · rw [if_neg fun both => zeroth both.2, boot zero (by decide) (by decide) (by omega), bootEntry, if_pos rfl,
        if_neg (by omega), if_neg zeroth]

def kernelAddrBase : Nat := 0xffff800000000000

theorem child_some {q : Nat} (entry : entryAt phys page idx = q * pgSize + prot) : child phys page idx = some q := by
  have odd : (q * pgSize + prot) % 2 = 1 := by
    simp only [pgSize, prot]
    omega
  have number : (q * pgSize + prot) / pgSize = q := by
    simp only [pgSize, prot]
    omega
  rw [child, entry, if_pos odd, number]

theorem child_none (entry : entryAt phys page idx = 0) : child phys page idx = none := by
  rw [child, entry]
  rfl

def tableOf (first i : Nat) : Nat := if i = 0 then 0x103 else first + i - 1

theorem KernelTables.top_child {root : Nat} (tables : KernelTables phys root first) (half : 256 ≤ i) (inside : i < 512) :
    child phys root i = if i = 256 then some 0x101 else none := by
  have entry := tables.top i half inside
  by_cases first_half : i = 256
  · rw [if_pos first_half] at entry
    rw [if_pos first_half, child, entry]
    rfl
  · rw [if_neg first_half] at entry
    rw [if_neg first_half, child_none entry]

theorem KernelTables.pdpt_child {root : Nat} (tables : KernelTables phys root first) (inside : i < 512) :
    child phys 0x101 i = if i = 0 then some 0x102 else none := by
  have entry := tables.pdpt i inside
  by_cases zero : i = 0
  · rw [if_pos zero] at entry
    rw [if_pos zero, child_some (q := 0x102) entry]
  · rw [if_neg zero] at entry
    rw [if_neg zero, child_none entry]

theorem KernelTables.directory_child {root : Nat} (tables : KernelTables phys root first) (inside : i < 512) :
    child phys 0x102 i = if i < 64 then some (tableOf first i) else none := by
  have entry := tables.directory i inside
  by_cases zero : i = 0
  · rw [if_pos zero] at entry
    rw [if_pos (by omega), tableOf, if_pos zero]
    exact child_some (q := 0x103) entry
  · rw [if_neg zero] at entry
    by_cases inRam : i < 64
    · rw [if_pos inRam] at entry
      rw [if_pos inRam, tableOf, if_neg zero, child_some entry]
    · rw [if_neg inRam] at entry
      rw [if_neg inRam, child_none entry]

theorem KernelTables.table_child {root : Nat} (tables : KernelTables phys root first) (small : i < 64) (inside : j < 512) :
    child phys (tableOf first i) j = some (512 * i + j) := by
  rw [tableOf]
  split
  · rename_i zero
    rw [child_some (tables.firstTable j inside), zero, Nat.mul_zero, Nat.zero_add]
  · have entry := tables.table (i - 1) (by omega) j inside
    have page : first + (i - 1) = first + i - 1 := by omega
    have value : (i - 1 + 1) * 0x200000 + j * pgSize + prot = (512 * i + j) * pgSize + prot := by
      simp only [pgSize]
      omega
    rw [page, value] at entry
    exact child_some entry

theorem KernelTables.translate {root vaddr : Nat} (tables : KernelTables phys root first)
    (half : kernelAddrBase ≤ vaddr) (bound : vaddr < 2 ^ 64) : translate phys root vaddr =
      if vaddr - kernelAddrBase < memBytesTotal then some ((vaddr - kernelAddrBase) / pgSize) else none := by
  obtain ⟨d, rfl⟩ := Nat.exists_eq_add_of_le half
  have steps : pathOf (kernelAddrBase + d) =
      [256 + d / 2 ^ 39, d / 2 ^ 30 % 512, d / 2 ^ 21 % 512, d / 2 ^ 12 % 512] := by
    simp only [kernelAddrBase] at bound
    simp only [pathOf, pageEntryIdx, kernelAddrBase, List.cons.injEq, and_true]
    omega
  have from_half : 256 + d / 2 ^ 39 < 512 := by
    simp only [kernelAddrBase] at bound
    omega
  have inside : ∀ n, n % 512 < 512 := fun n => Nat.mod_lt n (by decide)
  rw [Nat.add_sub_cancel_left, Memory.translate, steps, follow, tables.top_child (Nat.le_add_right _ _) from_half]
  by_cases first_half : d / 2 ^ 39 = 0
  · rw [first_half, if_pos rfl, Option.bind_some, follow, tables.pdpt_child (inside _)]
    by_cases gigabyte : d / 2 ^ 30 % 512 = 0
    · rw [if_pos gigabyte, Option.bind_some, follow, tables.directory_child (inside _)]
      by_cases inRam : d / 2 ^ 21 % 512 < 64
      · have number : 512 * (d / 2 ^ 21 % 512) + d / 2 ^ 12 % 512 = d / pgSize := by
          simp only [pgSize]
          omega
        have less : d < memBytesTotal := by
          simp only [memBytesTotal]
          omega
        rw [if_pos inRam, if_pos less, Option.bind_some, follow, tables.table_child inRam (inside _), number]
        rfl
      · rw [if_neg inRam, if_neg]
        · rfl
        · simp only [memBytesTotal]
          omega
    · rw [if_neg gigabyte, if_neg]
      · rfl
      · simp only [memBytesTotal]
        omega
  · rw [if_neg (by omega), if_neg]
    · rfl
    · simp only [memBytesTotal]
      omega

/-- The pages of the tables that all kernel halves share. -/
def SharedTable (first x : Nat) : Prop := (0x101 ≤ x ∧ x ≤ 0x103) ∨ (first ≤ x ∧ x < first + 63)

instance (first : Nat) : DecidablePred (SharedTable first) := fun _ => inferInstanceAs (Decidable (_ ∨ _))

theorem HalfInv.tables {boot : Nat → Buffer} {s : Machine} {root : Nat} (inv : HalfInv boot (SharedTable first) s)
    (isRoot : s.Root root) (built : KernelTables boot kernelPml4 first) : KernelTables s.ram.phys root first := by
  have same : ∀ x, SharedTable first x → ∀ i, entryAt s.ram.phys x i = entryAt boot x i := by
    intro x shared i
    rw [entryAt, entryAt, inv.pages x shared]
  constructor
  case top => exact fun i half less => (inv.tops root isRoot i half less).trans (built.top i half less)
  case pdpt => exact fun i less => (same _ (.inl (by decide)) i).trans (built.pdpt i less)
  case directory => exact fun i less => (same _ (.inl (by decide)) i).trans (built.directory i less)
  case firstTable => exact fun j less => (same _ (.inl (by decide)) j).trans (built.firstTable j less)
  case table => exact fun i small j less => (same _ (.inr (by omega)) j).trans (built.table i small j less)

theorem createPte_page (ecx ebx eax : Nat) (inside : ebx + ecx ≤ 512) (other : x ≠ 0x103) :
    createPte phys ecx ebx eax x = phys x := by
  induction ecx generalizing phys ebx eax with
  | zero => rfl
  | succ ecx ih =>
    rw [createPte_succ, ih (ebx + 1) (eax + 0x1000) (by omega), put_page other (by omega)]

theorem bootTables_page (other : x < 0x100 ∨ 0x103 < x) (k : Nat) : bootTables phys x k = phys x k := by
  have stored : ∀ (tables : Nat → Buffer) (page idx n : Nat), 0x100 ≤ page ∧ page ≤ 0x103 → idx < 512 →
      put tables 4 (page * pgSize + 8 * idx) n x = tables x :=
    fun tables page idx n table inside => put_page (by omega) inside
  rw [bootTables_stores, createPte_page 512 0 7 (by decide) (by omega), stored _ _ _ _ (by decide) (by decide),
    stored _ _ _ _ (by decide) (by decide), stored _ _ _ _ (by decide) (by decide),
    stored _ _ _ _ (by decide) (by decide), pml4Clear_byte 0x1000 (Nat.le_refl _), if_neg (by omega)]

theorem byte_of_entry (phys : Nat → Buffer) (page k : Nat) :
    phys page k = byteOf (entryAt phys page (k / 8)) (k % 8) := by
  have split : 8 * (k / 8) + k % 8 = k := Nat.div_add_mod k 8
  rw [entryAt, byteOf_wordAt (Nat.mod_lt k (by decide)), split]

theorem entry_zero {k : Nat} (zero : entryAt phys page (k / 8) = 0) : phys page k = 0 := by
  rw [byte_of_entry phys page k, zero, byteOf, Nat.zero_div]
  rfl

theorem mapAllPhyMem_cleared (zero : TablesZero phys) (low : 0x104 ≤ first) (high : first + 63 ≤ 0x200)
    (unused : ∀ page, reservedPages ≤ page → ∀ k < pgSize, phys page k = 0) :
    Cleared (mapAllPhyMem (bootTables phys) first) := by
  constructor
  · intro page beyond k less
    have reserved : reservedPages = 0x200 := by decide
    have cnt : pdteCnt - 1 = 63 := by decide
    have other : put (bootTables phys) 8 (0x100 * pgSize + 8 * 0) 0 page = bootTables phys page :=
      put_page (by omega) (by decide)
    rw [mapAllPhyMem, cnt, mapTables_page low (by decide) (by omega) (by omega)]
    refine (congrFun other k).trans ?_
    rw [bootTables_page (by omega)]
    exact unused page beyond k less
  · intro k less
    apply entry_zero
    apply (mapAllPhyMem_tables zero low (by omega)).2
    simp only [pgSize] at less
    omega

/-- In the address space of every task not yet reaped the kernel half is all of physical memory at `kernelAddrBase` and
    nothing else, on the runs that unmap nothing, map no page twice and reap no table (`MapsFresh`) and give no shared
    table to a child (`SparesTables`). Without these it fails: a page that `page_unmap` frees stays mapped and can become
    a table that a user program writes, and `sys_execv` maps a segment of the kernel half like any other. -/
theorem kernel_half_direct (phys : Nat → Buffer) (first : Nat) (ops : List (Tid × MemOp)) (s : Machine) (t : Tid)
    (vaddr : Nat) (zero : TablesZero phys) (unused : ∀ page, reservedPages ≤ page → ∀ k < pgSize, phys page k = 0)
    (low : 0x104 ≤ first) (high : first + 63 ≤ 0x200)
    (fresh : Meets Machine.step MapsFresh (Machine.start (mapAllPhyMem (bootTables phys) first)) ops)
    (spares : ∀ op ∈ ops, SparesTables (SharedTable first) op)
    (ran : run Machine.step (Machine.start (mapAllPhyMem (bootTables phys) first)) ops = .ok s) (kept : s.Kept t)
    (half : kernelAddrBase ≤ vaddr) (bound : vaddr < 2 ^ 64) :
    translate s.ram.phys (s.proc t).pml4 vaddr =
      if vaddr - kernelAddrBase < memBytesTotal then some ((vaddr - kernelAddrBase) / pgSize) else none := by
  have built := (mapAllPhyMem_tables zero low (by omega)).1
  have cleared := mapAllPhyMem_cleared zero low high unused
  generalize mapAllPhyMem (bootTables phys) first = boot at fresh ran built cleared
  have roots : ∀ r, (Machine.start boot).Root r → r = kernelPml4 := by
    intro r isRoot
    obtain ⟨_, _, _, table⟩ := isRoot
    exact table.symm
  have started : HalfInv boot (SharedTable first) (Machine.start boot) := by
    constructor
    case mem => exact memInv_start cleared
    case apart =>
      intro x shared
      have range : 0x101 ≤ x ∧ x < 0x200 := by
        simp only [SharedTable] at shared
        omega
      refine ⟨range.2, ?_⟩
      intro isRoot
      have top := roots x isRoot
      rw [kernelPml4] at top
      omega
    case pages => exact fun _ _ => rfl
    case tops =>
      intro r isRoot i _ _
      rw [roots r isRoot]
      rfl
  have inv := run_invariant halfInv_step started (fresh.and spares) ran
  exact (inv.tables kept.isRoot built).translate half bound

theorem put_beyond {k : Nat} (inside : idx < 512) (short : width ≤ 8) (beyond : pgSize ≤ k) :
    put phys width (page * pgSize + 8 * idx) n x k = phys x k := by
  simp only [pgSize] at beyond
  rw [put_entry phys width page n inside, Function.update_apply]
  split
  · rename_i here
    rw [here, copy_outside (by omega)]
  · rfl

theorem createPte_beyond {k : Nat} (ecx ebx eax : Nat) (inside : ebx + ecx ≤ 512) (beyond : pgSize ≤ k) :
    createPte phys ecx ebx eax x k = phys x k := by
  induction ecx generalizing phys ebx eax with
  | zero => rfl
  | succ ecx ih =>
    rw [createPte_succ, ih (ebx + 1) (eax + 0x1000) (by omega), put_beyond (by omega) (by decide) beyond]

theorem bootTables_beyond {k : Nat} (beyond : pgSize ≤ k) : bootTables phys x k = phys x k := by
  have outside : ¬ (x = 0x100 ∧ k < 0x1000) := by
    simp only [pgSize] at beyond
    omega
  rw [bootTables_stores, createPte_beyond 512 0 7 (by decide) beyond, put_beyond (by decide) (by decide) beyond,
    put_beyond (by decide) (by decide) beyond, put_beyond (by decide) (by decide) beyond,
    put_beyond (by decide) (by decide) beyond, pml4Clear_byte 0x1000 (Nat.le_refl _), if_neg outside]

theorem mapTable_beyond {pt cnt k : Nat} (inside : cnt ≤ 512) (beyond : pgSize ≤ k) :
    mapTable phys i (pt * pgSize) cnt x k = phys x k := by
  induction cnt with
  | zero => rfl
  | succ cnt ih => rw [mapTable, put_beyond (by omega) (Nat.le_refl 8) beyond, ih (by omega)]

theorem mapTables_beyond {cnt k : Nat} (low : 0x104 ≤ first) (small : cnt < 64) (beyond : pgSize ≤ k) :
    mapTables phys (first * pgSize - pgSize) cnt x k = phys x k := by
  induction cnt with
  | zero => rfl
  | succ cnt ih =>
    rw [mapTables_succ phys cnt low, mapTable_beyond (Nat.le_refl _) beyond, put_beyond (by omega) (Nat.le_refl 8) beyond]
    exact ih (by omega)

def directEntry (first x j : Nat) : Nat :=
  if x = 0x102 ∧ 1 ≤ j ∧ j ≤ 63 then (first + j - 1) * pgSize + prot
  else if first ≤ x ∧ x < first + 63 then (x - first + 1) * 0x200000 + j * pgSize + prot
  else if x = 0x100 ∧ j = 0 then 0
  else if 0x100 ≤ x ∧ x ≤ 0x103 then bootEntry x j else 0

def directTables (first : Nat) : Nat → Buffer :=
  fun x k => if k < pgSize then byteOf (directEntry first x (k / 8)) (k % 8) else 0

theorem mapAllPhyMem_blank (low : 0x104 ≤ first) (high : first < 2 ^ 20) :
    mapAllPhyMem (bootTables fun _ _ => 0) first = directTables first := by
  funext x k
  by_cases inside : k < pgSize
  · have less : k / 8 < 512 := by
      simp only [pgSize] at inside
      omega
    have boot : entryAt (bootTables fun _ _ => 0) x (k / 8) =
        if 0x100 ≤ x ∧ x ≤ 0x103 then bootEntry x (k / 8) else 0 := by
      split
      · rename_i table
        exact bootTables_entry (fun _ _ _ _ _ => rfl) table.1 table.2 less
      · apply wordAt_zero
        intro b _
        rw [bootTables_page (by omega)]
    rw [byte_of_entry (mapAllPhyMem _ first) x k, mapAllPhyMem_entry low high less, boot, directTables, if_pos inside]
    rfl
  · have beyond : pgSize ≤ k := Nat.le_of_not_lt inside
    have cnt : pdteCnt - 1 = 63 := by decide
    rw [directTables, if_neg inside, mapAllPhyMem, cnt, mapTables_beyond low (by decide) beyond]
    exact (@put_beyond (bootTables fun _ _ => 0) 0x100 0 8 0 x k (by decide) (by decide) beyond).trans
      (bootTables_beyond beyond)

/-- A program is loaded, extends its heap and forks; the child touches a segment, makes a thread and reaps it. -/
def forkRun : List (Tid × MemOp) :=
  bootOps ++ [(1, .clone false 0x150), (2, .fault 0x400100), (2, .clone true 0), (3, .exit), (2, .wait)]

theorem kernel_half_direct_closed : ∃ s : Machine,
    run Machine.step (Machine.start (mapAllPhyMem (bootTables fun _ _ => 0) 0x105)) forkRun = .ok s ∧
    (s.proc 2).pml4 = 0x150 ∧ (s.proc 3).life = .died ∧ (translate s.ram.phys 0x150 0x400100).isSome ∧
    translate s.ram.phys (s.proc 2).pml4 0xffff8000000b8000 = some 0xb8 := by
  have blank : mapAllPhyMem (bootTables fun _ _ => 0) 0x105 = directTables 0x105 :=
    mapAllPhyMem_blank (by decide) (by decide)
  have evaluated : endsIn (run Machine.step (Machine.start (directTables 0x105)) forkRun) (fun s =>
      decide ((2 < s.tasks ∧ (s.proc 2).life ≠ .died) ∧ (s.proc 2).pml4 = 0x150 ∧ (s.proc 3).life = .died ∧
        (translate s.ram.phys 0x150 0x400100).isSome = true)) = true := by
    decide +kernel
  have check : meetsCheck Machine.step MapsFresh (Machine.start (directTables 0x105)) forkRun = true := by
    decide +kernel
  have fresh := meets_of_check check
  have spares : ∀ op ∈ forkRun, SparesTables (SharedTable 0x105) op := by decide
  obtain ⟨s, ran, found⟩ := exists_of_endsIn evaluated
  obtain ⟨kept, table, reaped, mapped⟩ := of_decide_eq_true found
  rw [← blank] at ran fresh
  exact ⟨s, ran, table, reaped, mapped, kernel_half_direct (fun _ _ => 0) 0x105 forkRun s 2 0xffff8000000b8000
    (fun _ _ _ _ _ => rfl) (fun _ _ _ _ => rfl) (by decide) (by decide) fresh spares ran kept (by decide) (by decide)⟩

end RecoverOs.Memory
